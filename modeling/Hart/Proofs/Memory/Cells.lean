/-
Memory as a map of register-sized cells.

The cells at multiples of the cell size never overlap, and an access to one is
never refused.  Seen through them memory is a plain map from addresses to
numbers:

* `littleEndian_toBytes` — the bytes of a number spell it;
* `loadCell_eq`, `storeCell_eq` — the checked accesses are total on cells;
* `cell_setCell_self`, `cell_setCell_of_ne` — a cell reads back what was written,
  cut to the width, and no other cell changes.

Ranges of bytes are told apart by where they lie: `loadByte_setCell`,
`loadByte_zero_of_outside` and `loadByte_copy_of_outside` say that an edit of a
range that does not wrap leaves the bytes outside the range alone.

Design notes: a cell address is a multiple of the cell size below the number of
addresses (`IsCell`), so the whole cell lies in the address space and nothing
wraps.
-/
import Mathlib.Algebra.Group.Nat.Defs
import Hart.Proofs.Memory.Copying

namespace Hart

/-- The bytes of a number spell it, modulo what fits in them. -/
theorem littleEndian_toBytes (count n : Nat) :
    littleEndian (toBytes count n) = n % 256 ^ count := by
  induction count generalizing n with
  | zero => simp [toBytes, littleEndian, Nat.mod_one]
  | succ count ih =>
    have hb : (UInt8.ofNat n).toNat = n % 256 := by simp
    rw [toBytes, littleEndian, ih, hb, Nat.pow_succ, Nat.mul_comm (256 ^ count) 256,
      Nat.mod_mul]

namespace Xlen

theorem space_eq (x : Xlen) : x.space = 2 ^ x.bits := by
  cases x <;> rfl

theorem maxAddress_lt_space (x : Xlen) : x.maxAddress < x.space :=
  Nat.sub_lt x.space_pos Nat.one_pos

theorem bytes_pos (x : Xlen) : 0 < x.bytes := by
  cases x <;> decide

theorem bytes_dvd_space (x : Xlen) : x.bytes ∣ x.space := by
  cases x <;> decide

theorem pow_bytes (x : Xlen) : 256 ^ x.bytes = x.space := by
  cases x <;> rfl

/-- The distance to an address of the address space from one that is not above
it, and from one that is. -/
theorem distance_eq_of_lt {x : Xlen} {a c : Nat} (ha : a < x.space) (hc : c < x.space) :
    x.distance a c = if a ≤ c then c - a else c + x.space - a := by
  have h := x.wrap_of_lt ha
  by_cases hac : a ≤ c
  · rw [if_pos hac]
    cases x <;> simp only [distance, wrap, space] at * <;> omega
  · rw [if_neg hac]
    cases x <;> simp only [distance, wrap, space] at * <;> omega

/-- Outside a range that does not wrap, every address is at least as far away as
the range is long. -/
theorem le_distance_of_outside {x : Xlen} {a n c : Nat} (hn : 0 < n) (ha : a + n ≤ x.space)
    (hc : c < x.space) (hout : ¬ (a ≤ c ∧ c < a + n)) : n ≤ x.distance a c := by
  rw [distance_eq_of_lt (by omega) hc]
  by_cases hac : a ≤ c
  · rw [if_pos hac]
    omega
  · rw [if_neg hac]
    omega

end Xlen

namespace Memory

variable {x : Xlen}

/-- An address at which a whole cell of the width lies. -/
structure IsCell (x : Xlen) (a : Nat) : Prop where
  dvd : x.bytes ∣ a
  lt : a < x.space

/-- The number in the cell at an address. -/
def cell (m : Memory x) (a : Nat) : Nat := m.splitLoad a x.bytes

/-- Memory with the cell at an address set. -/
def setCell (m : Memory x) (a v : Nat) : Memory x := m.splitStore a x.bytes v

@[simp] theorem accessBytes_bytes (x : Xlen) : accessBytes x.bytes = x.bytes := by
  cases x <;> rfl

theorem IsCell.stop_le {a : Nat} (h : IsCell x a) : a + x.bytes ≤ x.space := by
  -- The address space is a whole number of cells, and this is one of them.
  obtain ⟨k, hk⟩ := h.dvd
  obtain ⟨n, hn⟩ := x.bytes_dvd_space
  have hlt : x.bytes * k < x.bytes * n := by rw [← hk, ← hn]; exact h.lt
  have hkn : k < n := Nat.lt_of_mul_lt_mul_left hlt
  calc a + x.bytes = x.bytes * (k + 1) := by rw [hk, Nat.mul_succ]
    _ ≤ x.bytes * n := Nat.mul_le_mul_left _ hkn
    _ = x.space := hn.symm

/-- Two cells are the same or do not overlap. -/
theorem IsCell.disjoint {a c : Nat} (ha : IsCell x a) (hc : IsCell x c) (hne : a ≠ c) :
    a + x.bytes ≤ c ∨ c + x.bytes ≤ a := by
  obtain ⟨i, hi⟩ := ha.dvd
  obtain ⟨j, hj⟩ := hc.dvd
  subst hi hj
  rcases Nat.lt_trichotomy i j with h | h | h
  · left
    exact Nat.mul_le_mul_left x.bytes h
  · exact absurd (congrArg _ h) hne
  · right
    exact Nat.mul_le_mul_left x.bytes h

/-- An access at a multiple of its size, a power of two, passes the alignment policy. -/
theorem alignmentError?_two_pow (m : Memory x) {a k : Nat} (hspace : 2 ^ k ∣ x.space)
    (h : 2 ^ k ∣ a) : m.alignmentError? a (2 ^ k) = none := by
  have haligned : Address.IsAligned (x.wrap a) (2 ^ k) := by
    right
    rw [Nat.and_two_pow_sub_one_eq_mod, Xlen.wrap, Nat.mod_mod_of_dvd a hspace]
    exact Nat.mod_eq_zero_of_dvd h
  rw [alignmentError?, if_neg fun hbad => hbad.2 haligned]

/-- An aligned access to a cell passes the alignment policy. -/
theorem alignmentError?_of_dvd (m : Memory x) {a : Nat} (h : x.bytes ∣ a) :
    m.alignmentError? a x.bytes = none := by
  cases x with
  | rv32 => exact alignmentError?_two_pow (k := 2) m (by decide) h
  | rv64 => exact alignmentError?_two_pow (k := 3) m (by decide) h

theorem loadCell_eq (m : Memory x) {a : Nat} (h : x.bytes ∣ a) : m.loadCell a = .ok (m.cell a) := by
  rw [loadCell, load_eq, alignmentError?_of_dvd m h, cell]

theorem storeCell_eq (m : Memory x) {a : Nat} (h : x.bytes ∣ a) (v : Nat) :
    m.storeCell a v = .ok (m.setCell a v) := by
  rw [storeCell, store, alignmentError?_of_dvd m h, setCell]

@[simp] theorem aligned_setCell (m : Memory x) (a v : Nat) : (m.setCell a v).aligned = m.aligned :=
  aligned_splitStore _ _ _ _

/-- Memories that agree on the bytes of a cell agree on the cell. -/
theorem cell_congr {m m' : Memory x} {a : Nat}
    (h : ∀ c, a ≤ c → c < a + x.bytes → m'.loadByte c = m.loadByte c) : m'.cell a = m.cell a := by
  unfold cell splitLoad
  rw [accessBytes_bytes]
  congr 1
  refine List.map_congr_left fun i hi => ?_
  have := List.mem_range.1 hi
  exact h (a + i) (by omega) (by omega)

theorem loadByte_setCell (m : Memory x) {a c : Nat} (v : Nat) (ha : IsCell x a) (hc : c < x.space)
    (hout : ¬ (a ≤ c ∧ c < a + x.bytes)) : (m.setCell a v).loadByte c = m.loadByte c := by
  have hd := Xlen.le_distance_of_outside x.bytes_pos ha.stop_le hc hout
  rw [setCell, loadByte_splitStore, accessBytes_bytes, List.getElem?_eq_none (by simpa using hd)]
  rfl

theorem cell_setCell_self (m : Memory x) {a : Nat} (v : Nat) (ha : IsCell x a) :
    (m.setCell a v).cell a = v % x.space := by
  have hstop := ha.stop_le
  have hbytes : (List.range x.bytes).map (fun i => (m.setCell a v).loadByte (a + i)) =
      toBytes x.bytes v := by
    refine List.ext_getElem (by simp) fun i hi hi' => ?_
    have hlt : i < x.bytes := by simpa using hi'
    rw [List.getElem_map, List.getElem_range, setCell, loadByte_splitStore, accessBytes_bytes,
      Xlen.distance_add_self a (by omega), List.getElem?_eq_getElem hi', Option.getD_some]
  rw [cell, splitLoad, accessBytes_bytes, hbytes, littleEndian_toBytes, x.pow_bytes]

theorem cell_setCell_of_ne (m : Memory x) {a c : Nat} (v : Nat) (ha : IsCell x a) (hc : IsCell x c)
    (hne : a ≠ c) : (m.setCell a v).cell c = m.cell c := by
  have hdisjoint := ha.disjoint hc hne
  have hstop := hc.stop_le
  refine cell_congr fun d hlow hhigh => ?_
  exact loadByte_setCell m v ha (by omega) (by omega)

/-! ### Edits of ranges -/

theorem loadByte_zero_of_outside (m : Memory x) {a n c : Nat} (ha : a + n ≤ x.space)
    (hc : c < x.space) (hout : ¬ (a ≤ c ∧ c < a + n)) : (m.zero a n).loadByte c = m.loadByte c := by
  rw [loadByte_zero]
  rcases Nat.eq_zero_or_pos n with hn | hn
  · rw [if_neg (by omega)]
  · have hd := Xlen.le_distance_of_outside hn ha hc hout
    rw [if_neg (by omega)]

theorem loadByte_zero_of_inside (m : Memory x) {a n c : Nat} (ha : a + n ≤ x.space)
    (hlow : a ≤ c) (hhigh : c < a + n) : (m.zero a n).loadByte c = 0 := by
  have hd := Xlen.distance_eq_of_lt (x := x) (a := a) (c := c) (by omega) (by omega)
  rw [if_pos hlow] at hd
  rw [loadByte_zero, hd, if_pos (by omega)]

theorem loadByte_storeBytes_of_outside (m : Memory x) {a c : Nat} {bytes : List UInt8}
    (ha : a + bytes.length ≤ x.space) (hc : c < x.space)
    (hout : ¬ (a ≤ c ∧ c < a + bytes.length)) :
    (m.storeBytes a bytes).loadByte c = m.loadByte c := by
  rw [loadByte_storeBytes m a c (by omega)]
  rcases Nat.eq_zero_or_pos bytes.length with hn | hn
  · rw [List.eq_nil_of_length_eq_zero hn]
    rfl
  · have hd := Xlen.le_distance_of_outside hn ha hc hout
    rw [List.getElem?_eq_none hd, Option.getD_none]

theorem loadByte_storeBytes_of_inside (m : Memory x) {a i : Nat} {bytes : List UInt8}
    (ha : a + bytes.length ≤ x.space) (hi : i < bytes.length) :
    (m.storeBytes a bytes).loadByte (a + i) = bytes[i] := by
  rw [loadByte_storeBytes m a (a + i) (by omega), Xlen.distance_add_self a (by omega),
    List.getElem?_eq_getElem hi, Option.getD_some]

/-- A copy changes no byte outside its target, when that does not wrap. -/
theorem loadByte_copy_of_outside (m : Memory x) {target source n c : Nat}
    (ha : target + n ≤ x.space) (hc : c < x.space) (hout : ¬ (target ≤ c ∧ c < target + n)) :
    (m.copy target source n).loadByte c = m.loadByte c := by
  refine loadByte_copy_of_far m (by omega) ?_
  rcases Nat.eq_zero_or_pos n with hn | hn
  · exact hn ▸ Nat.zero_le _
  · exact Xlen.le_distance_of_outside hn ha hc hout

theorem loadByte_copy_of_le_space (m : Memory x) {target source n i : Nat}
    (ht : target + n ≤ x.space) (hs : source + n ≤ x.space) (hi : i < n) :
    (m.copy target source n).loadByte (target + i) = m.loadByte (source + i) :=
  (copyInOrder_of_le_space ht hs).loadByte_copy m (by omega) hi

@[simp] theorem aligned_copy (m : Memory x) (target source n : Nat) :
    (m.copy target source n).aligned = m.aligned := by
  unfold copy
  generalize List.range ((n + (pageSize - 1)) / pageSize) = ks
  induction ks generalizing m with
  | nil => rfl
  | cons k ks ih =>
    rw [List.foldl_cons, ih]
    exact aligned_storeBytes _ _ _

end Memory

end Hart
