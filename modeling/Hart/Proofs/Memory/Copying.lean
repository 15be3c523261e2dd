/-
Copies between ranges that overlap.

A copy moves its range in chunks of a page, one after the other, from the end that its two
addresses call for.  Each chunk is read before it is written, but what it reads may lie where
an earlier chunk was written.

* `loadByte_copyChunk` — what one chunk does to each byte, in terms of `copyRank`, the place
  of a byte in the order in which a copy moves them;
* `loadByte_copy_of_far` — a copy changes no byte outside its target;
* `loadByte_copy_add` — a byte of the target is the one that its chunk found in the source;
* `Moved` — what a copy of a range should do, whether its ranges overlap or wrap;
* `copy_moves` — a copy does this on every memory exactly if it fits in one chunk or runs
  ahead of itself (`CopyInOrder`), and ranges that do not wrap are always copied so.

Design notes: the direction of a copy depends on its addresses as they are given, and where
the ranges lie on their remainders.  `copyGap` is how far the copy follows behind its own
writes in the direction that it takes, so one statement covers both directions.
-/
import Mathlib.Logic.Basic
import Hart.Memory.View

namespace Hart

variable {x : Xlen}

/-- Addresses that lie less than the address space above another are told apart by how far. -/
theorem Xlen.eq_of_wrap_add_eq {a i j : Nat} (hi : i < x.space) (hj : j < x.space)
    (h : x.wrap (a + i) = x.wrap (a + j)) : i = j := by
  cases x <;> simp only [wrap, space] at * <;> omega

namespace Memory

variable {target source length i j k c : Nat}

/-! ### Chunks -/

/-- The place of a byte of the range in the order in which a copy moves them. -/
def copyRank (target source length i : Nat) : Nat :=
  if CopiesBackward target source length then length - 1 - i else i

theorem copyRank_lt (target source : Nat) (hi : i < length) : copyRank target source length i < length := by
  unfold copyRank
  split <;> omega

/-- A chunk starts inside the range that is copied. -/
theorem chunk_lt (hk : k < (length + (pageSize - 1)) / pageSize) : k * pageSize < length := by
  have := Nat.le_div_iff_mul_le (x := k + 1) (y := length + (pageSize - 1)) (k := pageSize)
    (by decide)
  simp only [pageSize] at *
  omega

theorem div_lt_chunks (hi : i < length) :
    i / pageSize < (length + (pageSize - 1)) / pageSize := by
  simp only [pageSize]
  omega

/-- A run of bytes that is stored from another range reads back as that range. -/
theorem loadByte_storeBytes_loadBytes (m : Memory x) {start count : Nat}
    (hcount : start + count ≤ x.space) (c : Nat) :
    (m.storeBytes (target + start) (m.loadBytes (source + start) count)).loadByte c =
      if start ≤ x.distance target c ∧ x.distance target c < start + count then
        m.loadByte (source + x.distance target c)
      else m.loadByte c := by
  have hd := x.distance_lt target c
  rw [loadByte_storeBytes m _ c (by rw [length_loadBytes]; omega), loadBytes_eq_map,
    x.distance_add target c (by omega)]
  by_cases hlow : start ≤ x.distance target c
  · rw [if_pos hlow]
    by_cases hhigh : x.distance target c < start + count
    · have hin : x.distance target c - start < count := by omega
      have hsum : source + start + (x.distance target c - start) =
          source + x.distance target c := by omega
      simp [hlow, hhigh, hin, hsum]
    · have hout : count ≤ x.distance target c - start := by omega
      simp [hlow, hhigh, hout]
  · have hout : count ≤ x.distance target c + x.space - start := by omega
    simp [hlow, hout]

/-- One chunk moves the bytes whose turn it is. -/
theorem loadByte_copyChunk (m : Memory x) (hk : k * pageSize < length)
    (hlength : length ≤ x.space) (c : Nat) :
    (copyChunk target source length m k).loadByte c =
      if x.distance target c < length ∧
          copyRank target source length (x.distance target c) / pageSize = k then
        m.loadByte (source + x.distance target c)
      else m.loadByte c := by
  unfold copyChunk copyRank
  dsimp only
  by_cases hback : CopiesBackward target source length
  · rw [if_pos hback, if_pos hback, loadByte_storeBytes_loadBytes m (by omega)]
    refine if_congr ?_ rfl rfl
    simp only [pageSize] at *
    omega
  · rw [if_neg hback, if_neg hback, loadByte_storeBytes_loadBytes m (by omega)]
    refine if_congr ?_ rfl rfl
    simp only [pageSize] at *
    omega

/-- Memory after the first `k` chunks of a copy. -/
def copyChunks (target source length : Nat) (m : Memory x) (k : Nat) : Memory x :=
  (List.range k).foldl (copyChunk target source length) m

theorem copyChunks_succ (m : Memory x) (k : Nat) :
    copyChunks target source length m (k + 1) =
      copyChunk target source length (copyChunks target source length m k) k := by
  simp [copyChunks, List.range_succ]

/-- The first chunks of a copy leave alone what is outside the target or has a later turn. -/
theorem loadByte_copyChunks_of_later (m : Memory x) (hlength : length ≤ x.space)
    (hk : k ≤ (length + (pageSize - 1)) / pageSize)
    (hlater : x.distance target c < length →
      k ≤ copyRank target source length (x.distance target c) / pageSize) :
    (copyChunks target source length m k).loadByte c = m.loadByte c := by
  induction k with
  | zero => rfl
  | succ k ih =>
    rw [copyChunks_succ, loadByte_copyChunk _ (chunk_lt hk) hlength, if_neg]
    · exact ih (by omega) fun hd => Nat.le_of_succ_le (hlater hd)
    · rintro ⟨hd, hturn⟩
      have := hlater hd
      omega

/-- Once a byte was moved it stays as its chunk found it in the source. -/
theorem loadByte_copyChunks_add (m : Memory x) (hlength : length ≤ x.space) (hi : i < length)
    (hk : k ≤ (length + (pageSize - 1)) / pageSize)
    (hturn : copyRank target source length i / pageSize < k) :
    (copyChunks target source length m k).loadByte (target + i) =
      (copyChunks target source length m (copyRank target source length i / pageSize)).loadByte
        (source + i) := by
  have hd : x.distance target (target + i) = i := x.distance_add_self target (by omega)
  induction k with
  | zero => exact absurd hturn (Nat.not_lt_zero _)
  | succ k ih =>
    rw [copyChunks_succ, loadByte_copyChunk _ (chunk_lt hk) hlength, hd]
    by_cases hnow : copyRank target source length i / pageSize = k
    · rw [if_pos ⟨hi, hnow⟩, hnow]
    · rw [if_neg fun h => hnow h.2]
      exact ih (by omega) (by omega)

/-! ### Copies -/

/-- A copy changes no byte that lies as far above its target as the range is long. -/
theorem loadByte_copy_of_far (m : Memory x) (hlength : length ≤ x.space)
    (hfar : length ≤ x.distance target c) :
    (m.copy target source length).loadByte c = m.loadByte c :=
  loadByte_copyChunks_of_later m hlength (Nat.le_refl _) fun hd => absurd hd (Nat.not_lt.2 hfar)

/-- A byte of the target is the one that its chunk found in the source. -/
theorem loadByte_copy_add (m : Memory x) (hlength : length ≤ x.space) (hi : i < length) :
    (m.copy target source length).loadByte (target + i) =
      (copyChunks target source length m (copyRank target source length i / pageSize)).loadByte
        (source + i) :=
  loadByte_copyChunks_add m hlength hi (Nat.le_refl _) (div_lt_chunks (copyRank_lt target source hi))

/-- How far a copy follows behind its own writes: how far the target lies above the source, or
below it when the copy runs backward. -/
def copyGap (x : Xlen) (target source length : Nat) : Nat :=
  if CopiesBackward target source length then x.distance target source
  else x.distance source target

/-- No chunk of a copy is written over bytes that a later one has to read. -/
def CopyInOrder (x : Xlen) (target source length : Nat) : Prop :=
  length ≤ pageSize ∨ copyGap x target source length = 0 ∨ length ≤ copyGap x target source length

instance (target source length : Nat) : Decidable (CopyInOrder x target source length) :=
  inferInstanceAs (Decidable (_ ∨ _))

/-- A byte of the source that lies in the target, at an earlier turn than its own, is as many
turns ahead as the gap says. -/
theorem copyGap_eq (hlength : length ≤ x.space) (hi : i < length)
    (hj : x.distance target (source + i) < length)
    (hahead : copyRank target source length (x.distance target (source + i)) <
      copyRank target source length i) :
    copyGap x target source length = copyRank target source length i -
      copyRank target source length (x.distance target (source + i)) := by
  unfold copyGap copyRank at *
  by_cases hback : CopiesBackward target source length
  · simp only [hback, if_true] at *
    cases x <;> simp only [Xlen.distance, Xlen.wrap, Xlen.space] at * <;> omega
  · simp only [hback, if_false] at *
    cases x <;> simp only [Xlen.distance, Xlen.wrap, Xlen.space] at * <;> omega

/-- In a copy that is in order every chunk finds its source as it was. -/
theorem CopyInOrder.loadByte_copy (h : CopyInOrder x target source length) (m : Memory x)
    (hlength : length ≤ x.space) (hi : i < length) :
    (m.copy target source length).loadByte (target + i) = m.loadByte (source + i) := by
  have hchunks := div_lt_chunks (copyRank_lt target source hi)
  rw [loadByte_copy_add m hlength hi]
  refine loadByte_copyChunks_of_later m hlength (Nat.le_of_lt hchunks) fun hj =>
    Nat.not_lt.1 fun hturn => ?_
  -- Otherwise an earlier chunk was written there, and the gap is less than the length.
  have hahead := Nat.lt_of_div_lt_div hturn
  have hgap := copyGap_eq hlength hi hj hahead
  have hlast := copyRank_lt target source hi
  unfold CopyInOrder at h
  simp only [pageSize] at *
  omega

/-- A copy that is not in order moves some byte twice. -/
theorem exists_loadByte_copy_ne (hlength : length ≤ x.space)
    (h : ¬ CopyInOrder x target source length) :
    ∃ i < length, ∃ j < length, i ≠ j ∧
      ∀ m : Memory x, (m.copy target source length).loadByte (target + i) =
        m.loadByte (source + j) := by
  have hgap : 0 < copyGap x target source length ∧ copyGap x target source length < length ∧
      pageSize < length := by
    unfold CopyInOrder at h
    omega
  obtain ⟨hpos, hlt, hlong⟩ := hgap
  -- The first byte that is read too late is a gap behind one of the first chunk.
  obtain ⟨i, j, hi, hj, hd, hrank, hfirst⟩ : ∃ i j, i < length ∧ j < length ∧
      x.distance target (source + i) = j ∧
      copyRank target source length i = max (copyGap x target source length) pageSize ∧
      copyRank target source length j =
        max (copyGap x target source length) pageSize - copyGap x target source length := by
    unfold copyGap copyRank at *
    by_cases hback : CopiesBackward target source length
    · simp only [hback, if_true] at *
      refine ⟨length - 1 - max (x.distance target source) pageSize,
        length - 1 - max (x.distance target source) pageSize + x.distance target source,
        by omega, by omega, ?_, by omega, by omega⟩
      cases x <;> simp only [Xlen.distance, Xlen.wrap, Xlen.space] at * <;> omega
    · simp only [hback, if_false] at *
      refine ⟨max (x.distance source target) pageSize,
        max (x.distance source target) pageSize - x.distance source target,
        by omega, by omega, ?_, by omega, by omega⟩
      cases x <;> simp only [Xlen.distance, Xlen.wrap, Xlen.space] at * <;> omega
  refine ⟨i, hi, j, hj, ?_, fun m => ?_⟩
  · rintro rfl
    omega
  have hzero : copyRank target source length j / pageSize = 0 := by
    simp only [pageSize] at *
    omega
  have hchunks := div_lt_chunks (copyRank_lt target source hi)
  have hsame : x.wrap (source + i) = x.wrap (target + j) := by
    rw [← hd]
    exact (x.wrap_add_distance _ _).symm
  have hturn : copyRank target source length j / pageSize <
      copyRank target source length i / pageSize := by
    simp only [pageSize] at *
    omega
  rw [loadByte_copy_add m hlength hi, loadByte_congr _ hsame,
    loadByte_copyChunks_add m hlength hj (Nat.le_of_lt hchunks) hturn, hzero]
  rfl

/-- Ranges that do not wrap are copied in order, however they overlap. -/
theorem copyInOrder_of_le_space (htarget : target + length ≤ x.space)
    (hsource : source + length ≤ x.space) : CopyInOrder x target source length := by
  rcases Nat.eq_zero_or_pos length with hzero | hpos
  · exact .inl (hzero ▸ Nat.zero_le _)
  right
  unfold copyGap
  by_cases hback : CopiesBackward target source length
  · rw [if_pos hback]
    unfold CopiesBackward at hback
    cases x <;> simp only [Xlen.distance, Xlen.wrap, Xlen.space] at * <;> omega
  · rw [if_neg hback]
    unfold CopiesBackward at hback
    cases x <;> simp only [Xlen.distance, Xlen.wrap, Xlen.space] at * <;> omega

/-- The bytes of the source are in the target, as they were, and all others are as they were. -/
structure Moved (target source length : Nat) (m m' : Memory x) : Prop where
  inside : ∀ i < length, m'.loadByte (target + i) = m.loadByte (source + i)
  outside : ∀ c, (∀ i < length, x.wrap (target + i) ≠ x.wrap c) → m'.loadByte c = m.loadByte c

theorem loadByte_copy_of_wrap_ne (m : Memory x) (hlength : length ≤ x.space)
    (hout : ∀ i < length, x.wrap (target + i) ≠ x.wrap c) :
    (m.copy target source length).loadByte c = m.loadByte c := by
  refine loadByte_copy_of_far m hlength (Nat.not_lt.1 fun hin => ?_)
  exact hout _ hin (x.wrap_add_distance target c)

/-- A copy changes nothing outside its target.  It moves the source as it was on every memory
exactly if it is in order, as it is whenever neither range wraps. -/
theorem copy_moves (hlength : length ≤ x.space) :
    (∀ (m : Memory x) c, (∀ i < length, x.wrap (target + i) ≠ x.wrap c) →
      (m.copy target source length).loadByte c = m.loadByte c) ∧
    ((∀ m : Memory x, Moved target source length m (m.copy target source length)) ↔
      CopyInOrder x target source length) ∧
    (target + length ≤ x.space → source + length ≤ x.space →
      ∀ m : Memory x, Moved target source length m (m.copy target source length)) := by
  have hmoved (h : CopyInOrder x target source length) (m : Memory x) :
      Moved target source length m (m.copy target source length) :=
    ⟨fun i hi => h.loadByte_copy m hlength hi, fun c hout => loadByte_copy_of_wrap_ne m hlength hout⟩
  refine ⟨fun m c hout => loadByte_copy_of_wrap_ne m hlength hout, ⟨fun hall => ?_, hmoved⟩,
    fun htarget hsource => hmoved (copyInOrder_of_le_space htarget hsource)⟩
  refine Decidable.byContradiction fun hnot => ?_
  obtain ⟨i, hi, j, hj, hne, htwice⟩ := exists_loadByte_copy_ne hlength hnot
  -- A memory that tells the two bytes apart.
  have hsame := (hall ((empty x false).storeByte (source + j) 1)).inside i hi
  have hplace : x.wrap (source + j) ≠ x.wrap (source + i) := fun heq =>
    hne (Xlen.eq_of_wrap_add_eq (by omega) (by omega) heq.symm)
  rw [htwice, loadByte_storeByte, if_pos rfl, loadByte_storeByte, if_neg hplace,
    loadByte_empty] at hsame
  exact absurd hsame (by decide)

/-- A page and a half that is copied half a page up across the top of the address space finds
its second page overwritten; at the bottom of the address space it does not. -/
theorem copy_moves_across_top :
    (¬ ∀ m : Memory .rv32, Moved 0 0xFFFFF800 0x1800 m (m.copy 0 0xFFFFF800 0x1800)) ∧
      ∀ m : Memory .rv32, Moved 0x800 0 0x1800 m (m.copy 0x800 0 0x1800) := by
  have hlength : 0x1800 ≤ Xlen.rv32.space := by decide
  exact ⟨mt (copy_moves hlength).2.1.1 (by decide), (copy_moves hlength).2.2 (by decide) (by decide)⟩

end Memory

end Hart
