/-
Memory as a plain map of bytes.

Pages say how a memory is kept, and nothing else.  With the pages forgotten, what is
left is a byte for every address of the width, and the alignment policy.  On such a
`ByteMap` every operation is said byte by byte, with no slices, no missing pages and
no split accesses, and the memory cannot be told from it:

* `Memory.plain` — the plain map that a memory stands for;
* `plain_perform` — an operation answers the same on both, and afterwards the memory
  stands for the map that the operation leaves;
* `run_refines_plain` — so do the operations of any sequence, and memories that stand
  for the same map answer alike, whatever pages exist in them.

Design notes: addresses of a map are words of the width, so they wrap by themselves.
An operation takes any number as its address, and the map sees its remainder.  Sizes
of numbers are those of `AccessWidth`.  A copy reads and writes chunks of a page, and
where its ranges overlap across the top of the address space the order of the chunks
shows; so the map copies by the same chunks.
-/
import Hart.Proofs.Isa.Memory

namespace Hart

variable {x : Xlen}

/-- The bytes of an address space, and whether accesses must be naturally aligned. -/
@[ext]
structure ByteMap (x : Xlen) where
  byte : BitVec x.bits → UInt8
  aligned : Bool

namespace Memory

/-- What can be asked of a memory. -/
inductive Operation where
  | loadByte (address : Nat)
  /-- Reads a number of the width. -/
  | load (address : Nat) (width : AccessWidth)
  | loadBytes (address length : Nat)
  | storeByte (address : Nat) (b : UInt8)
  | removeByte (address : Nat)
  /-- Writes the low bytes of a number. -/
  | store (address : Nat) (width : AccessWidth) (value : Nat)
  | storeBytes (address : Nat) (bytes : List UInt8)
  | zero (address length : Nat)
  | copy (target source length : Nat)
  | clear
  | setAligned (aligned : Bool)
  deriving DecidableEq, Repr

/-- What an operation answers. -/
inductive Answer where
  | done
  | byte (b : UInt8)
  | bytes (bs : List UInt8)
  | number (v : Nat)
  | refused (e : MemoryError)
  deriving DecidableEq, Repr

/-- One operation on a memory; a refused one leaves it as it is. -/
def perform (m : Memory x) : Operation → Answer × Memory x
  | .loadByte a => (.byte (m.loadByte a), m)
  | .load a w =>
    match m.load a w.bytes with
    | .ok v => (.number v, m)
    | .error e => (.refused e, m)
  | .loadBytes a n => (.bytes (m.loadBytes a n), m)
  | .storeByte a b => (.done, m.storeByte a b)
  | .removeByte a => (.done, m.removeByte a)
  | .store a w v =>
    match m.store a w.bytes v with
    | .ok m' => (.done, m')
    | .error e => (.refused e, m)
  | .storeBytes a bytes => (.done, m.storeBytes a bytes)
  | .zero a n => (.done, m.zero a n)
  | .copy target source n => (.done, m.copy target source n)
  | .clear => (.done, m.clear)
  | .setAligned aligned => (.done, { m with aligned })

/-- The answers of a sequence of operations, and the memory after the last one. -/
def run (m : Memory x) : List Operation → List Answer × Memory x
  | [] => ([], m)
  | op :: rest =>
    ((m.perform op).1 :: ((m.perform op).2.run rest).1, ((m.perform op).2.run rest).2)

end Memory

namespace ByteMap

/-! ### The operations, byte by byte -/

def storeByte (p : ByteMap x) (a : BitVec x.bits) (b : UInt8) : ByteMap x :=
  { p with byte := fun c => if c = a then b else p.byte c }

/-- The bytes at an address and the ones after it. -/
def loadBytes (p : ByteMap x) (a : BitVec x.bits) : Nat → List UInt8
  | 0 => []
  | n + 1 => p.byte a :: p.loadBytes (a + 1) n

def storeBytes (p : ByteMap x) (a : BitVec x.bits) : List UInt8 → ByteMap x
  | [] => p
  | b :: rest => (p.storeByte a b).storeBytes (a + 1) rest

/-- Sets the addresses that lie less than `n` above another to zero. -/
def zero (p : ByteMap x) (a : BitVec x.bits) (n : Nat) : ByteMap x :=
  { p with byte := fun c => if (c - a).toNat < n then 0 else p.byte c }

def clear (p : ByteMap x) : ByteMap x :=
  { p with byte := fun _ => 0 }

/-- Alignment is enforced, and an access of `n` bytes at the address does not have it. -/
def Refuses (p : ByteMap x) (a : BitVec x.bits) (n : Nat) : Prop :=
  p.aligned = true ∧ 1 < n ∧ ¬ n ∣ a.toNat

instance (p : ByteMap x) (a : BitVec x.bits) (n : Nat) : Decidable (p.Refuses a n) :=
  inferInstanceAs (Decidable (_ ∧ _))

/-- The number that the bytes at an address spell. -/
def load (p : ByteMap x) (a : BitVec x.bits) (n : Nat) : Except MemoryError Nat :=
  if p.Refuses a n then .error (.misaligned a.toNat n) else .ok (littleEndian (p.loadBytes a n))

/-- Puts the bytes of a number at the addresses that lie less than `n` above another. -/
def store (p : ByteMap x) (a : BitVec x.bits) (n v : Nat) : Except MemoryError (ByteMap x) :=
  if p.Refuses a n then .error (.misaligned a.toNat n)
  else .ok { p with byte := fun c =>
    if (c - a).toNat < n then UInt8.ofNat (v / 256 ^ (c - a).toNat) else p.byte c }

def copyChunk (target source length : Nat) (p : ByteMap x) (k : Nat) : ByteMap x :=
  let done := k * pageSize
  let count := min (length - done) pageSize
  let start := if Memory.CopiesBackward target source length then length - done - count else done
  p.storeBytes (BitVec.ofNat _ (target + start))
    (p.loadBytes (BitVec.ofNat _ (source + start)) count)

def copy (p : ByteMap x) (target source length : Nat) : ByteMap x :=
  (List.range ((length + (pageSize - 1)) / pageSize)).foldl (copyChunk target source length) p

open Memory in
/-- One operation on a map; a refused one leaves it as it is. -/
def perform (p : ByteMap x) : Operation → Answer × ByteMap x
  | .loadByte a => (.byte (p.byte (BitVec.ofNat _ a)), p)
  | .load a w =>
    match p.load (BitVec.ofNat _ a) w.bytes with
    | .ok v => (.number v, p)
    | .error e => (.refused e, p)
  | .loadBytes a n => (.bytes (p.loadBytes (BitVec.ofNat _ a) n), p)
  | .storeByte a b => (.done, p.storeByte (BitVec.ofNat _ a) b)
  | .removeByte a => (.done, p.storeByte (BitVec.ofNat _ a) 0)
  | .store a w v =>
    match p.store (BitVec.ofNat _ a) w.bytes v with
    | .ok p' => (.done, p')
    | .error e => (.refused e, p)
  | .storeBytes a bytes => (.done, p.storeBytes (BitVec.ofNat _ a) bytes)
  | .zero a n => (.done, p.zero (BitVec.ofNat _ a) n)
  | .copy target source n => (.done, p.copy target source n)
  | .clear => (.done, p.clear)
  | .setAligned aligned => (.done, { p with aligned })

/-- The answers of a sequence of operations, and the map after the last one. -/
def run (p : ByteMap x) : List Memory.Operation → List Memory.Answer × ByteMap x
  | [] => ([], p)
  | op :: rest =>
    ((p.perform op).1 :: ((p.perform op).2.run rest).1, ((p.perform op).2.run rest).2)

theorem storeBytes_append (p : ByteMap x) (a : BitVec x.bits) (front back : List UInt8) :
    p.storeBytes a (front ++ back) =
      (p.storeBytes a front).storeBytes (a + BitVec.ofNat _ front.length) back := by
  induction front generalizing p a with
  | nil =>
    show p.storeBytes a back = p.storeBytes (a + 0#x.bits) back
    rw [BitVec.add_zero]
  | cons b front ih =>
    show (p.storeByte a b).storeBytes (a + 1) (front ++ back) = _
    rw [ih, List.length_cons, Nat.add_comm front.length 1, BitVec.ofNat_add, ← BitVec.add_assoc]
    rfl

end ByteMap

namespace Memory

/-- The map that a memory stands for. -/
def plain (m : Memory x) : ByteMap x where
  byte a := m.loadByte a.toNat
  aligned := m.aligned

/-! ### Single bytes -/

theorem byte_plain_ofNat (m : Memory x) (a : Nat) :
    m.plain.byte (BitVec.ofNat _ a) = m.loadByte a := by
  show m.loadByte (BitVec.ofNat x.bits a).toNat = m.loadByte a
  rw [BitVec.toNat_ofNat, ← x.space_eq]
  exact m.loadByte_congr (x.wrap_wrap a)

/-- An address counts as the word that it leaves. -/
theorem wrap_eq_wrap_toNat_iff {a : Nat} {c : BitVec x.bits} :
    x.wrap a = x.wrap c.toNat ↔ c = BitVec.ofNat _ a := by
  rw [← BitVec.toNat_inj, BitVec.toNat_ofNat, ← x.space_eq,
    Xlen.wrap_of_lt (x.space_eq ▸ c.isLt : c.toNat < x.space)]
  exact eq_comm

theorem plain_storeByte (m : Memory x) (a : Nat) (b : UInt8) :
    (m.storeByte a b).plain = m.plain.storeByte (BitVec.ofNat _ a) b := by
  refine ByteMap.ext (funext fun c => ?_) rfl
  show (m.storeByte a b).loadByte c.toNat = if _ then b else m.loadByte c.toNat
  simp only [loadByte_storeByte, wrap_eq_wrap_toNat_iff]

theorem plain_removeByte (m : Memory x) (a : Nat) :
    (m.removeByte a).plain = m.plain.storeByte (BitVec.ofNat _ a) 0 := by
  refine ByteMap.ext (funext fun c => ?_) rfl
  show (m.removeByte a).loadByte c.toNat = if _ then 0 else m.loadByte c.toNat
  simp only [loadByte_removeByte, wrap_eq_wrap_toNat_iff]

theorem plain_clear (m : Memory x) : m.clear.plain = m.plain.clear :=
  ByteMap.ext (funext fun c => loadByte_clear m c.toNat) rfl

/-! ### Ranges of bytes -/

theorem plain_loadBytes (m : Memory x) (a n : Nat) :
    m.plain.loadBytes (BitVec.ofNat _ a) n = m.loadBytes a n := by
  rw [loadBytes_eq_map]
  induction n generalizing a with
  | zero => rfl
  | succ n ih =>
    have hnext : BitVec.ofNat x.bits a + 1 = BitVec.ofNat x.bits (a + 1) :=
      (BitVec.ofNat_add a 1).symm
    rw [ByteMap.loadBytes, hnext, ih, byte_plain_ofNat, List.range_succ_eq_map, List.map_cons,
      List.map_map]
    refine congrArg (List.cons _) (List.map_congr_left fun i _ => ?_)
    show m.loadByte (a + 1 + i) = m.loadByte (a + (i + 1))
    rw [Nat.add_right_comm, Nat.add_assoc]

theorem plain_storeSequence (m : Memory x) (a : Nat) (bytes : List UInt8) :
    (m.storeSequence a bytes).plain = m.plain.storeBytes (BitVec.ofNat _ a) bytes := by
  induction bytes generalizing m a with
  | nil => rfl
  | cons b rest ih =>
    rw [storeSequence, ih, plain_storeByte, BitVec.ofNat_add]
    rfl

/-- Writing a slice at once and byte by byte come to the same. -/
theorem plain_storeSlice (m : Memory x) {a count : Nat} {bytes : List UInt8}
    (h : offsetOf x a + bytes.length ≤ pageSize) :
    (m.storeSlice ⟨pageOf x a, offsetOf x a, count⟩ bytes).plain =
      m.plain.storeBytes (BitVec.ofNat _ a) bytes := by
  have hspace : bytes.length ≤ x.space := by
    cases x <;> simp only [Xlen.space, pageSize] at * <;> omega
  rw [← plain_storeSequence]
  refine ByteMap.ext (funext fun c => ?_) (aligned_storeSequence m a bytes).symm
  exact (loadByte_storeSlice m _ h).trans (loadByte_storeSequence m a _ hspace).symm

theorem plain_storeBytes (m : Memory x) (a : Nat) (bytes : List UInt8) :
    (m.storeBytes a bytes).plain = m.plain.storeBytes (BitVec.ofNat _ a) bytes := by
  unfold storeBytes
  generalize hlen : bytes.length = n
  -- The range may go around the address space, so the slices are taken one by one.
  induction n using Nat.strongRecOn generalizing m a bytes with
  | ind n ih =>
    by_cases hn : n = 0
    · have hnil : bytes = [] := List.eq_nil_of_length_eq_zero (hlen.trans hn)
      rw [hn, hnil, slices_zero]
      rfl
    · obtain ⟨count, hpos, hle, hfit, hslices⟩ := exists_slices_eq (x := x) a hn
      have htake : (bytes.take count).length = count := by rw [List.length_take]; omega
      have hdrop : (bytes.drop count).length = n - count := by rw [List.length_drop, hlen]
      have hfirst : (m.storeSlice ⟨pageOf x a, offsetOf x a, count⟩ (bytes.take count)).plain =
          m.plain.storeBytes (BitVec.ofNat _ a) (bytes.take count) :=
        plain_storeSlice m (by rw [htake]; exact hfit)
      have hsplit := m.plain.storeBytes_append (BitVec.ofNat _ a) (bytes.take count)
        (bytes.drop count)
      rw [List.take_append_drop, htake, ← BitVec.ofNat_add, ← hfirst] at hsplit
      rw [hslices, storeSlices, hsplit]
      exact ih (n - count) (by omega) _ (a + count) _ hdrop

theorem plain_zero (m : Memory x) (a n : Nat) :
    (m.zero a n).plain = m.plain.zero (BitVec.ofNat _ a) n := by
  refine ByteMap.ext (funext fun c => ?_) (aligned_zero m a n)
  show (m.zero a n).loadByte c.toNat = if _ then 0 else m.loadByte c.toNat
  rw [loadByte_zero, distance_ofNat]

theorem plain_copyChunk (target source length : Nat) (m : Memory x) (k : Nat) :
    (copyChunk target source length m k).plain =
      ByteMap.copyChunk target source length m.plain k := by
  simp only [copyChunk, ByteMap.copyChunk, plain_storeBytes, plain_loadBytes]

theorem plain_copy (m : Memory x) (target source length : Nat) :
    (m.copy target source length).plain = m.plain.copy target source length := by
  unfold copy ByteMap.copy
  exact (List.foldl_hom plain fun m k => (plain_copyChunk target source length m k).symm).symm

/-! ### Numbers -/

/-- The accesses that the alignment policy refuses. -/
theorem alignmentError?_eq (m : Memory x) (a : Nat) (w : AccessWidth) :
    m.alignmentError? a w.bytes =
      if m.plain.Refuses (BitVec.ofNat _ a) w.bytes then
        some (.misaligned (BitVec.ofNat x.bits a).toNat w.bytes)
      else none := by
  have hwrap : (BitVec.ofNat x.bits a).toNat = x.wrap a := by
    rw [BitVec.toNat_ofNat, ← x.space_eq]
    rfl
  have haligned :
      Address.IsAligned (x.wrap a) w.bytes ↔ ¬ (1 < w.bytes ∧ ¬ w.bytes ∣ x.wrap a) := by
    have hpow (k : Nat) (hk : 0 < k) : Address.IsAligned (x.wrap a) (2 ^ k) ↔
        ¬ (1 < 2 ^ k ∧ ¬ 2 ^ k ∣ x.wrap a) := by
      have hone : 1 < 2 ^ k := Nat.one_lt_two_pow (Nat.ne_of_gt hk)
      rw [Address.IsAligned, Nat.and_two_pow_sub_one_eq_mod, ← Nat.dvd_iff_mod_eq_zero]
      constructor
      · rintro (hle | hdvd) ⟨-, hnot⟩
        · exact absurd hone (Nat.not_lt_of_le hle)
        · exact hnot hdvd
      · intro hnot
        exact .inr (Decidable.not_not.1 fun hdvd => hnot ⟨hone, hdvd⟩)
    cases w with
    | byte => simp [Address.IsAligned, AccessWidth.bytes]
    | half => exact hpow 1 Nat.one_pos
    | word => exact hpow 2 Nat.two_pos
    | double => exact hpow 3 (Nat.succ_pos 2)
  have hrefuses : m.plain.Refuses (BitVec.ofNat _ a) w.bytes ↔
      m.aligned = true ∧ ¬ Address.IsAligned (x.wrap a) w.bytes := by
    rw [haligned, Decidable.not_not, ByteMap.Refuses, hwrap]
    rfl
  rw [alignmentError?, hwrap]
  simp only [hrefuses]

theorem accessBytes_width (w : AccessWidth) : accessBytes w.bytes = w.bytes := by
  cases w <;> rfl

theorem load_eq_plain (m : Memory x) (a : Nat) (w : AccessWidth) :
    m.load a w.bytes = m.plain.load (BitVec.ofNat _ a) w.bytes := by
  rw [load_eq, alignmentError?_eq, ByteMap.load]
  by_cases hrefuses : m.plain.Refuses (BitVec.ofNat _ a) w.bytes
  · simp only [hrefuses, if_true]
  · simp only [hrefuses, if_false, splitLoad, accessBytes_width, plain_loadBytes, loadBytes_eq_map]

theorem plain_splitStore (m : Memory x) (a v : Nat) (w : AccessWidth) :
    (m.splitStore a w.bytes v).plain =
      { m.plain with byte := fun c =>
          if (c - BitVec.ofNat _ a).toNat < w.bytes then
            UInt8.ofNat (v / 256 ^ (c - BitVec.ofNat _ a).toNat)
          else m.plain.byte c } := by
  refine ByteMap.ext (funext fun c => ?_) (aligned_splitStore m a w.bytes v)
  show (m.splitStore a w.bytes v).loadByte c.toNat = _
  rw [loadByte_splitStore, distance_ofNat, accessBytes_width]
  by_cases hin : (c - BitVec.ofNat _ a).toNat < w.bytes
  · rw [getElem?_toBytes v hin]
    exact (if_pos hin).symm
  · rw [List.getElem?_eq_none (by rw [length_toBytes]; exact Nat.le_of_not_lt hin)]
    exact (if_neg hin).symm

theorem store_map_plain (m : Memory x) (a v : Nat) (w : AccessWidth) :
    (m.store a w.bytes v).map plain = m.plain.store (BitVec.ofNat _ a) w.bytes v := by
  rw [store, alignmentError?_eq, ByteMap.store]
  by_cases hrefuses : m.plain.Refuses (BitVec.ofNat _ a) w.bytes
  · simp only [hrefuses, if_true]
    rfl
  · simp only [hrefuses, if_false]
    exact congrArg Except.ok (plain_splitStore m a v w)

/-! ### Operations and sequences of them -/

theorem plain_perform (m : Memory x) (op : Operation) :
    ((m.perform op).1, (m.perform op).2.plain) = m.plain.perform op := by
  cases op with
  | loadByte a => exact congrArg (fun b => (Answer.byte b, m.plain)) (byte_plain_ofNat m a).symm
  | load a w =>
    simp only [perform, ByteMap.perform, load_eq_plain]
    cases m.plain.load (BitVec.ofNat _ a) w.bytes <;> rfl
  | loadBytes a n =>
    exact congrArg (fun bs => (Answer.bytes bs, m.plain)) (plain_loadBytes m a n).symm
  | storeByte a b => exact congrArg (Prod.mk Answer.done) (plain_storeByte m a b)
  | removeByte a => exact congrArg (Prod.mk Answer.done) (plain_removeByte m a)
  | store a w v =>
    simp only [perform, ByteMap.perform, ← store_map_plain]
    cases m.store a w.bytes v <;> rfl
  | storeBytes a bytes => exact congrArg (Prod.mk Answer.done) (plain_storeBytes m a bytes)
  | zero a n => exact congrArg (Prod.mk Answer.done) (plain_zero m a n)
  | copy target source n => exact congrArg (Prod.mk Answer.done) (plain_copy m target source n)
  | clear => exact congrArg (Prod.mk Answer.done) (plain_clear m)
  | setAligned aligned => rfl

theorem plain_run (m : Memory x) (ops : List Operation) :
    ((m.run ops).1, (m.run ops).2.plain) = m.plain.run ops := by
  induction ops generalizing m with
  | nil => rfl
  | cons op rest ih =>
    rw [ByteMap.run, ← plain_perform, ← ih (m.perform op).2]
    rfl

/-- Whatever is asked of a memory, in whatever order, it answers as the plain map that it
stands for and goes on standing for it; so no answer shows which pages exist. -/
theorem run_refines_plain (m : Memory x) (ops : List Operation) :
    (m.run ops).1 = (m.plain.run ops).1 ∧ (m.run ops).2.plain = (m.plain.run ops).2 ∧
      ∀ m' : Memory x, m'.plain = m.plain → (m'.run ops).1 = (m.run ops).1 := by
  have hrun := Prod.mk.inj (plain_run m ops)
  refine ⟨hrun.1, hrun.2, fun m' hsame => ?_⟩
  have hrun' := Prod.mk.inj (plain_run m' ops)
  rw [hrun'.1, hsame, hrun.1]

/-- A page of zeros is told apart from a missing one by no access to it, across its end and
across the end of the address space. -/
theorem run_refines_plain_blank_page :
    let m := empty .rv32 true
    let m' := m.storeByte 0xFFFFFFFF 0
    let ops : List Operation := [.load 0xFFFFFFFC .word, .store 0xFFFFFFFE .word 1,
      .storeBytes 0xFFFFFFFE [1, 2, 3, 4], .load 0x100000000 .half, .loadByte 0xFFFFFFFF]
    m'.mappedPages = 1 ∧ m.mappedPages = 0 ∧ (m'.run ops).1 = (m.run ops).1 ∧
      (m.run ops).1 = [.number 0, .refused (.misaligned 0xFFFFFFFE 4), .done, .number 0x0403,
        .byte 2] := by
  intro m m' ops
  have hplain : m'.plain = m.plain := by
    rw [plain_storeByte]
    refine ByteMap.ext (funext fun c => ?_) rfl
    show (if c = _ then 0 else (empty .rv32 true).loadByte c.toNat) = m.loadByte c.toNat
    rw [loadByte_empty, ite_self]
  have hrun := run_refines_plain m ops
  refine ⟨by decide +kernel, rfl, hrun.2.2 m' hplain, hrun.1.trans ?_⟩
  decide +kernel

end Memory

end Hart
