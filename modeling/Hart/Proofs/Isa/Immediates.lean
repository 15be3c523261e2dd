/-
The immediates of a word.

The machine puts an immediate together with shifts and masks, where the instruction set draws
it as slices of the word side by side:

* `shift_and_mask` — a shift and a mask cut a slice;
* `shiftLeft_or_eq_append`, `shifted_pieces_eq_append` — a piece that is shifted past other ones
  lies in front of them;
* `ImmediateFormat.extend_eq` — shifting to the top and back extends the sign;
* `ImmediateFormat.read_eq_drawn` — the machine reads the immediates that are drawn.

Design notes: what the machine shifts are words of 32 bits, so each piece appears widened to
one.  The sign is extended only after the pieces are together, at the width of the format.
-/
import Hart.Proofs.Isa.Listing

namespace Hart

open Isa

/-! ### Pieces of a word -/

/-- A shift and a mask cut a slice. -/
theorem shift_and_mask (w : BitVec 32) (start length : Nat) :
    (w >>> start) &&& (BitVec.allOnes length).setWidth 32 =
      (w.extractLsb' start length).setWidth 32 := by
  rw [← BitVec.setWidth_ushiftRight_eq_extractLsb]
  apply BitVec.eq_of_getLsbD_eq
  intro i hi
  rw [BitVec.getLsbD_and, BitVec.getLsbD_setWidth, BitVec.getLsbD_allOnes, BitVec.getLsbD_setWidth,
    BitVec.getLsbD_setWidth]
  simp only [hi, decide_true, Bool.true_and]
  exact Bool.and_comm _ _

/-- A piece that is shifted past another one lies in front of it. -/
theorem shiftLeft_or_eq_append {m n : Nat} (high : BitVec m) (low : BitVec n) :
    (high.setWidth 32 <<< n) ||| low.setWidth 32 = (high ++ low).setWidth 32 := by
  apply BitVec.eq_of_getLsbD_eq
  intro i hi
  rw [BitVec.getLsbD_or, BitVec.getLsbD_shiftLeft, BitVec.getLsbD_setWidth,
    BitVec.getLsbD_setWidth, BitVec.getLsbD_setWidth, BitVec.getLsbD_append]
  by_cases hlow : i < n
  · simp [hi, hlow]
  · have hhigh : i - n < 32 := by omega
    have hout : low.getLsbD i = false := BitVec.getLsbD_of_ge low i (Nat.not_lt.1 hlow)
    simp [hi, hlow, hhigh, hout]

/-- Four pieces of an offset, in front of the bit that is not spelled. -/
theorem shifted_pieces_eq_append {k l m n : Nat} (p : BitVec k) (q : BitVec l) (r : BitVec m)
    (t : BitVec n) :
    (p.setWidth 32 <<< (l + m + n + 1)) ||| (q.setWidth 32 <<< (m + n + 1)) |||
        (r.setWidth 32 <<< (n + 1)) ||| (t.setWidth 32 <<< 1) =
      (p ++ q ++ r ++ t ++ 0#1).setWidth 32 := by
  simp only [← shiftLeft_or_eq_append, BitVec.shiftLeft_or_distrib, ← BitVec.shiftLeft_add]
  exact BitVec.or_zero.symm

/-- The sign comes down with the upper bits. -/
theorem signExtend_sshiftRight (w : BitVec 32) {start length : Nat} (hpos : 0 < length)
    (hsum : start + length = 32) :
    (w.sshiftRight start).signExtend 64 = (w.extractLsb' start length).signExtend 64 := by
  have hlast : start + (length - 1) = 32 - 1 := by omega
  have hsign : (w.extractLsb' start length).msb = w.msb := by
    have hin : length - 1 < length := by omega
    rw [BitVec.msb_eq_getLsbD_last, BitVec.msb_eq_getLsbD_last, BitVec.getLsbD_extractLsb', hlast]
    simp only [hin, decide_true, Bool.true_and]
  apply BitVec.eq_of_getLsbD_eq
  intro i hi
  rw [BitVec.getLsbD_signExtend, BitVec.getLsbD_signExtend, BitVec.getLsbD_sshiftRight,
    BitVec.getLsbD_extractLsb', hsign, BitVec.msb_sshiftRight]
  by_cases hin : i < length
  · have hword : i < 32 := by omega
    have hbelow : start + i < 32 := by omega
    simp [hi, hin, hword, hbelow]
  · have habove : ¬ start + i < 32 := by omega
    by_cases hword : i < 32
    · simp [hi, hin, hword, habove]
    · simp [hi, hin, hword]

namespace ImmediateFormat

/-- Shifting to the top and back extends the sign. -/
theorem extend_eq {n : Nat} (hpos : 0 < n) (hn : n ≤ 32) (v : BitVec n) :
    extend (v.setWidth 32) n = v.signExtend 64 := by
  have hback : (v.setWidth 32 <<< (32 - n)).extractLsb' (32 - n) n = v := by
    apply BitVec.eq_of_getLsbD_eq
    intro i hi
    have htop : 32 - n + i < 32 := by omega
    simp [hi, htop]
  rw [extend, signExtend_sshiftRight _ hpos (by omega), hback]

/-- The immediate of a format as it is drawn, sign-extended. -/
def drawn (w : BitVec 32) : ImmediateFormat → Word
  | i => (immI w).signExtend 64
  | s => (immS w).signExtend 64
  | b => (immB w).signExtend 64
  | u => (immU w ++ 0#12).signExtend 64
  | j => (immJ w).signExtend 64

/-! ### Putting the pieces together -/

theorem assembled_immS (w : BitVec 32) :
    (((w >>> 25) &&& 0x7F) <<< 5) ||| ((w >>> 7) &&& 0x1F) = (immS w).setWidth 32 := by
  have hhigh : (w >>> 25) &&& 0x7F = (w.extractLsb' 25 7).setWidth 32 := shift_and_mask w 25 7
  have hlow : (w >>> 7) &&& 0x1F = (w.extractLsb' 7 5).setWidth 32 := shift_and_mask w 7 5
  rw [hhigh, hlow, shiftLeft_or_eq_append, immS]

theorem assembled_immB (w : BitVec 32) :
    (((w >>> 31) &&& 0x1) <<< 12) ||| (((w >>> 7) &&& 0x1) <<< 11) |||
        (((w >>> 25) &&& 0x3F) <<< 5) ||| (((w >>> 8) &&& 0xF) <<< 1) =
      (immB w).setWidth 32 := by
  have hbit12 : (w >>> 31) &&& 0x1 = (w.extractLsb' 31 1).setWidth 32 := shift_and_mask w 31 1
  have hbit11 : (w >>> 7) &&& 0x1 = (w.extractLsb' 7 1).setWidth 32 := shift_and_mask w 7 1
  have hbits10To5 : (w >>> 25) &&& 0x3F = (w.extractLsb' 25 6).setWidth 32 :=
    shift_and_mask w 25 6
  have hbits4To1 : (w >>> 8) &&& 0xF = (w.extractLsb' 8 4).setWidth 32 := shift_and_mask w 8 4
  rw [hbit12, hbit11, hbits10To5, hbits4To1]
  exact shifted_pieces_eq_append (w.extractLsb' 31 1) (w.extractLsb' 7 1) (w.extractLsb' 25 6)
    (w.extractLsb' 8 4)

theorem assembled_immJ (w : BitVec 32) :
    (((w >>> 31) &&& 0x1) <<< 20) ||| (((w >>> 12) &&& 0xFF) <<< 12) |||
        (((w >>> 20) &&& 0x1) <<< 11) ||| (((w >>> 21) &&& 0x3FF) <<< 1) =
      (immJ w).setWidth 32 := by
  have hbit20 : (w >>> 31) &&& 0x1 = (w.extractLsb' 31 1).setWidth 32 := shift_and_mask w 31 1
  have hbits19To12 : (w >>> 12) &&& 0xFF = (w.extractLsb' 12 8).setWidth 32 :=
    shift_and_mask w 12 8
  have hbit11 : (w >>> 20) &&& 0x1 = (w.extractLsb' 20 1).setWidth 32 := shift_and_mask w 20 1
  have hbits10To1 : (w >>> 21) &&& 0x3FF = (w.extractLsb' 21 10).setWidth 32 :=
    shift_and_mask w 21 10
  rw [hbit20, hbits19To12, hbit11, hbits10To1]
  exact shifted_pieces_eq_append (w.extractLsb' 31 1) (w.extractLsb' 12 8) (w.extractLsb' 20 1)
    (w.extractLsb' 21 10)

/-- The upper immediate stays in its place. -/
theorem masked_immU (w : BitVec 32) : w &&& 0xFFFFF000 = immU w ++ 0#12 := by
  have hmask : (0xFFFFF000 : BitVec 32) = BitVec.allOnes 20 ++ 0#12 := rfl
  apply BitVec.eq_of_getLsbD_eq
  intro i hi
  rw [hmask, BitVec.getLsbD_and, BitVec.getLsbD_append, BitVec.getLsbD_append]
  by_cases hlow : i < 12
  · simp [hlow]
  · have hhigh : i - 12 < 20 := by omega
    have hback : 12 + (i - 12) = i := by omega
    rw [immU, BitVec.getLsbD_allOnes, BitVec.getLsbD_extractLsb', hback]
    simp [hlow, hhigh]

/-- The machine reads the immediates that the instruction set draws. -/
theorem read_eq_drawn (w : BitVec 32) (format : ImmediateFormat) :
    format.read w = format.drawn w := by
  cases format with
  | i => exact signExtend_sshiftRight w (by decide) rfl
  | s =>
    dsimp only [read, drawn]
    rw [assembled_immS, extend_eq (by decide) (by decide)]
  | b =>
    dsimp only [read, drawn]
    rw [assembled_immB, extend_eq (by decide) (by decide)]
  | u =>
    dsimp only [read, drawn]
    rw [masked_immU]
  | j =>
    dsimp only [read, drawn]
    rw [assembled_immJ, extend_eq (by decide) (by decide)]

end ImmediateFormat

end Hart
