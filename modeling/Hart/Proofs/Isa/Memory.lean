/-
Words in memory.

The instruction set sees memory as a byte for every word of the width.  This is how
loads and stores of the machine look from there:

* `toNat_view_read` — the number that a load answers;
* `view_splitStore` — the bytes after a store.
-/
import Hart.Proofs.Isa.Arithmetic
import Hart.Proofs.Memory.Cells

namespace Hart

/-- The bytes of a number in base 256. -/
theorem getElem?_toBytes {count i : Nat} (n : Nat) (hi : i < count) :
    (toBytes count n)[i]? = some (UInt8.ofNat (n / 256 ^ i)) := by
  induction count generalizing n i with
  | zero => exact absurd hi (Nat.not_lt_zero i)
  | succ count ih =>
    cases i with
    | zero => simp [toBytes]
    | succ i =>
      rw [toBytes, List.getElem?_cons_succ, ih _ (Nat.lt_of_succ_lt_succ hi), Nat.div_div_eq_div_mul,
        Nat.pow_succ']

namespace Memory

variable {x : Xlen}

/-- The bytes of memory, by the words that are their addresses. -/
def view (m : Memory x) (a : BitVec x.bits) : BitVec 8 :=
  (m.loadByte a.toNat).toBitVec

theorem view_ofNat (m : Memory x) (a : Nat) :
    m.view (BitVec.ofNat x.bits a) = (m.loadByte a).toBitVec := by
  rw [view, BitVec.toNat_ofNat, ← x.space_eq]
  exact congrArg UInt8.toBitVec (m.loadByte_congr (x.wrap_wrap a))

theorem distance_ofNat (a : Nat) (c : BitVec x.bits) :
    x.distance a c.toNat = (c - BitVec.ofNat x.bits a).toNat := by
  rw [BitVec.toNat_sub, BitVec.toNat_ofNat, ← x.space_eq, Xlen.distance, Nat.add_comm]
  rfl

/-- Reading spells the number in successive bytes. -/
theorem toNat_read {s : Isa.State x} {m : Memory x} (hs : s.mem = m.view) (a n : Nat) :
    (s.read (BitVec.ofNat x.bits a) n).toNat =
      littleEndian ((List.range n).map fun i => m.loadByte (a + i)) := by
  induction n generalizing a with
  | zero => rfl
  | succ n ih =>
    have hnext : BitVec.ofNat x.bits a + 1 = BitVec.ofNat x.bits (a + 1) :=
      (BitVec.ofNat_add a 1).symm
    have hrest : (List.range (n + 1)).map (fun i => m.loadByte (a + i)) =
        m.loadByte a :: (List.range n).map fun i => m.loadByte (a + 1 + i) := by
      rw [List.range_succ_eq_map, List.map_cons, List.map_map]
      refine congrArg (List.cons _) (List.map_congr_left fun i _ => ?_)
      show m.loadByte (a + (i + 1)) = _
      rw [Nat.add_right_comm, Nat.add_assoc]
    -- The first byte is the low digit, and the others are read from the next address.
    rw [hrest, littleEndian, ← ih, ← hnext]
    show (s.read (BitVec.ofNat x.bits a + 1) n ++ s.mem (BitVec.ofNat x.bits a)).toNat = _
    rw [BitVec.toNat_append, hs, view_ofNat, ← Nat.shiftLeft_add_eq_or_of_lt (BitVec.isLt _),
      Nat.shiftLeft_eq, Nat.mul_comm, Nat.add_comm]
    rfl

/-- What a load answers, if it is not refused. -/
theorem read_of_load {s : Isa.State x} {m : Memory x} (hs : s.mem = m.view) {a n raw : Nat}
    (hn : n ≤ 8) (h : m.load a n = .ok raw) :
    (s.read (BitVec.ofNat x.bits a) n).toNat = raw := by
  rw [load_eq] at h
  split at h
  · cases h
  · cases h
    rw [toNat_read hs, splitLoad, accessBytes, Nat.min_eq_left hn]

/-- The bytes of a word are those of its slot. -/
theorem extractLsb'_word (v : Word) {i : Nat} (hi : i < x.bytes) :
    (x.word v).extractLsb' (8 * i) 8 = (UInt8.ofNat (v.toNat / 256 ^ i)).toBitVec := by
  have hslot : (x.word v).extractLsb' (8 * i) 8 = v.extractLsb' (8 * i) 8 := by
    have hbits := x.bits_eq
    apply BitVec.eq_of_getLsbD_eq
    intro j hj
    have hlt : 8 * i + j < x.bits := by omega
    simp only [Xlen.word, BitVec.getLsbD_extractLsb', BitVec.getLsbD_setWidth, hlt, decide_true,
      Bool.true_and]
  rw [hslot, BitVec.extractLsb', Nat.shiftRight_eq_div_pow, Nat.pow_mul]
  rfl

/-- What a store leaves behind, if it is not refused. -/
theorem view_of_store {m m' : Memory x} {a n : Nat} {v : Word} (hn : n ≤ x.bytes)
    (h : m.store a n v.toNat = .ok m') (c : BitVec x.bits) :
    m'.view c =
      if (c - BitVec.ofNat x.bits a).toNat < n then
        (x.word v).extractLsb' (8 * (c - BitVec.ofNat x.bits a).toNat) 8
      else m.view c := by
  have hbytes : accessBytes n = n := Nat.min_eq_left (Nat.le_trans hn (by cases x <;> decide))
  rw [store] at h
  split at h
  · cases h
  · cases h
    rw [view, loadByte_splitStore, distance_ofNat, hbytes]
    by_cases hin : (c - BitVec.ofNat x.bits a).toNat < n
    · rw [if_pos hin, getElem?_toBytes _ hin, Option.getD_some]
      exact (extractLsb'_word v (by omega)).symm
    · have hout : (toBytes n v.toNat).length ≤ (c - BitVec.ofNat x.bits a).toNat := by
        rw [length_toBytes]
        exact Nat.le_of_not_lt hin
      rw [if_neg hin, List.getElem?_eq_none hout, Option.getD_none, view]

theorem aligned_of_store {m m' : Memory x} {a n v : Nat} (h : m.store a n v = .ok m') :
    m'.aligned = m.aligned := by
  rw [store] at h
  split at h
  · cases h
  · cases h
    exact m.aligned_splitStore a n v

end Memory

end Hart
