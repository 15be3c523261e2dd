/-
Loads and stores of up to eight bytes.

Numbers are little-endian.  An access whose bytes lie in one page is read from
that page at once; one that crosses a page is split into bytes, whose addresses
wrap at the top of the address space:

* `Memory.load` and `Memory.store` — the accesses, with the alignment policy;
* `Memory.splitLoad` and `Memory.splitStore` — the same byte by byte;
* `load_eq` — a load that is not refused answers as if split;
* `loadByte_splitStore` — a store changes its bytes and no other.

Design notes: the alignment check comes before any byte is touched, so a refused
store changes nothing.  Sizes above eight count as eight.
-/
import Hart.LittleEndian
import Hart.Memory.Basic

namespace Hart

namespace Memory

variable {x : Xlen}

/-- The number of bytes that an access of a size moves. -/
def accessBytes (size : Nat) : Nat := min size 8

/-- Sets successive bytes, one after the other. -/
def storeSequence (m : Memory x) (address : Nat) : List UInt8 → Memory x
  | [] => m
  | b :: rest => (m.storeByte address b).storeSequence (address + 1) rest

def splitLoad (m : Memory x) (address size : Nat) : Nat :=
  littleEndian ((List.range (accessBytes size)).map fun i => m.loadByte (address + i))

def splitStore (m : Memory x) (address size value : Nat) : Memory x :=
  m.storeSequence address (toBytes (accessBytes size) value)

/-- The error of an access that the alignment policy refuses. -/
def alignmentError? (m : Memory x) (address size : Nat) : Option MemoryError :=
  if m.aligned ∧ ¬ Address.IsAligned (x.wrap address) size then
    some (.misaligned (x.wrap address) size)
  else none

/-- The number stored in `size` bytes at an address. -/
def load (m : Memory x) (address size : Nat) : Except MemoryError Nat :=
  match m.alignmentError? address size with
  | some e => .error e
  | none =>
    if offsetOf x address + accessBytes size ≤ pageSize then
      match m.pages[pageOf x address]? with
      | some page => .ok (littleEndian (page.read (offsetOf x address) (accessBytes size)))
      | none => .ok 0
    else .ok (m.splitLoad address size)

/-- Sets `size` bytes at an address to the low bytes of a number. -/
def store (m : Memory x) (address size value : Nat) : Except MemoryError (Memory x) :=
  match m.alignmentError? address size with
  | some e => .error e
  | none => .ok (m.splitStore address size value)

/-- The number in the register-sized cell at an address. -/
def loadCell (m : Memory x) (address : Nat) : Except MemoryError Nat :=
  m.load address x.bytes

def storeCell (m : Memory x) (address value : Nat) : Except MemoryError (Memory x) :=
  m.store address x.bytes value

@[simp] theorem aligned_storeSequence (m : Memory x) (a : Nat) (bytes : List UInt8) :
    (m.storeSequence a bytes).aligned = m.aligned := by
  induction bytes generalizing m a with
  | nil => rfl
  | cons b rest ih => rw [storeSequence, ih, aligned_storeByte]

/-- A byte of a stored sequence is found at its distance from the start. -/
theorem loadByte_storeSequence (m : Memory x) (a c : Nat) {bytes : List UInt8}
    (h : bytes.length ≤ x.space) :
    (m.storeSequence a bytes).loadByte c = bytes[x.distance a c]?.getD (m.loadByte c) := by
  induction bytes generalizing m a with
  | nil => simp [storeSequence]
  | cons b rest ih =>
    have hlen : rest.length + 1 ≤ x.space := h
    rw [storeSequence, ih _ _ (by omega), loadByte_storeByte,
      x.distance_add a c (by have := x.space_pos; omega)]
    by_cases hd : x.distance a c = 0
    · have hw : x.wrap a = x.wrap c := (x.distance_eq_zero_iff a c).1 hd
      -- The first byte lies at the start, and the rest ends before it goes around.
      have hout : rest.length ≤ x.space - 1 := by omega
      simp [hd, hw, hout]
    · have hw : x.wrap a ≠ x.wrap c := fun hw => hd ((x.distance_eq_zero_iff a c).2 hw)
      obtain ⟨d, hd⟩ := Nat.exists_eq_succ_of_ne_zero hd
      simp [hd, hw]

@[simp] theorem aligned_splitStore (m : Memory x) (a size v : Nat) :
    (m.splitStore a size v).aligned = m.aligned :=
  aligned_storeSequence _ _ _

theorem loadByte_splitStore (m : Memory x) (a size v c : Nat) :
    (m.splitStore a size v).loadByte c =
      (toBytes (accessBytes size) v)[x.distance a c]?.getD (m.loadByte c) := by
  refine loadByte_storeSequence m a c ?_
  rw [length_toBytes]
  cases x <;> simp only [accessBytes, Xlen.space] <;> omega

/-- An access inside one page and one that is split answer alike. -/
theorem load_eq (m : Memory x) (a size : Nat) :
    m.load a size =
      match m.alignmentError? a size with
      | some e => .error e
      | none => .ok (m.splitLoad a size) := by
  unfold load
  cases m.alignmentError? a size with
  | some e => rfl
  | none =>
    by_cases hfit : offsetOf x a + accessBytes size ≤ pageSize
    · have hbyte (i : Nat) (hi : i ∈ List.range (accessBytes size)) :=
        m.loadByte_add (a := a) (i := i) (by have := List.mem_range.1 hi; omega)
      simp only [hfit, if_true, splitLoad, List.map_congr_left hbyte]
      cases m.pages[pageOf x a]? with
      | some page => rfl
      | none => simp [List.map_const']
    · simp only [hfit, if_false]

end Memory

end Hart
