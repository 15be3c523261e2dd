/-
Laws of the arithmetic unit.

`AluOp.Laws r a b` says in integers what the results `r` of the operations on two words
are: the halves of products, quotients with their remainders, shifts, and comparisons.

* `AluOp.laws_eval` — the operations on words of any width obey them;
* `AluOp.execute_narrow` — on low halves the unit answers with the sign-extended result
  of 32-bit words.

Design notes: a product is the high half times the size of a word and the low half, the
high half with a sign if a factor has one.  A division by zero and the one overflow of
signed division are laws of their own.
-/
import Mathlib.Algebra.Order.Ring.Abs
import Mathlib.Algebra.Order.Ring.Int
import Hart.Proofs.Isa.Arithmetic
import Hart.Proofs.Isa.Formats

namespace Hart.AluOp

open Isa

variable {w : Nat}

/-- The results `r` of the operations on the words `a` and `b`. -/
structure Laws (r : AluOp → BitVec w) (a b : BitVec w) : Prop where
  product_signed : (r mulh).toInt * 2 ^ w + (r mul).toNat = a.toInt * b.toInt
  product_mixed : (r mulhsu).toInt * 2 ^ w + (r mul).toNat = a.toInt * b.toNat
  product_unsigned : (r mulhu).toNat * 2 ^ w + (r mul).toNat = a.toNat * b.toNat
  division_unsigned : b ≠ 0 →
    a.toNat = (r divu).toNat * b.toNat + (r remu).toNat ∧ (r remu).toNat < b.toNat
  /-- Modulo the size of a word. -/
  division_signed : b ≠ 0 → a = r div * b + r rem
  remainder : b ≠ 0 → |(r rem).toInt| < |b.toInt| ∧
    ((r rem).toInt = 0 ∨ (r rem).toInt.sign = a.toInt.sign)
  truncates : b ≠ 0 → a ≠ BitVec.intMin w ∨ b ≠ -1#w → (r div).toInt = a.toInt.tdiv b.toInt
  overflow : a = BitVec.intMin w → b = -1#w → r div = BitVec.intMin w ∧ r rem = 0
  by_zero : b = 0 →
    r div = BitVec.allOnes w ∧ r divu = BitVec.allOnes w ∧ r rem = a ∧ r remu = a
  shift_left : (r sll).toNat = a.toNat * 2 ^ (b.toNat % w) % 2 ^ w
  shift_right : (r srl).toNat = a.toNat / 2 ^ (b.toNat % w)
  shift_signed : (r sra).toInt = a.toInt / 2 ^ (b.toNat % w)
  less_signed : r slt = if a.toInt < b.toInt then 1 else 0
  less_unsigned : r sltu = if a.toNat < b.toNat then 1 else 0

/-! ### Products -/

theorem toNat_ofInt_eq_emod (z : Int) : ((BitVec.ofInt w z).toNat : Int) = z % 2 ^ w := by
  have hpos : (0 : Int) < 2 ^ w := Int.pow_pos (by decide)
  rw [BitVec.toNat_ofInt]
  push_cast
  exact Int.toNat_of_nonneg (Int.emod_nonneg z (Int.ne_of_gt hpos))

/-- The halves of a number of two words with a sign. -/
theorem halves_signed {z : Int} (hle : -(2 ^ w * 2 ^ (w + 1)) ≤ z)
    (hlt : z < 2 ^ w * 2 ^ (w + 1)) :
    (BitVec.ofInt (w + 1) (z / 2 ^ (w + 1))).toInt * 2 ^ (w + 1) +
      (BitVec.ofInt (w + 1) z).toNat = z := by
  have hpos : (0 : Int) < 2 ^ (w + 1) := Int.pow_pos (by decide)
  -- The high half is in the range of a word, so nothing of it is lost.
  have hhigh : (BitVec.ofInt (w + 1) (z / 2 ^ (w + 1))).toInt = z / 2 ^ (w + 1) := by
    have hlow : -2 ^ w ≤ z / 2 ^ (w + 1) := by
      apply Int.le_ediv_of_mul_le hpos
      rw [Int.neg_mul]
      exact hle
    have hup : z / 2 ^ (w + 1) < 2 ^ w := Int.ediv_lt_of_lt_mul hpos hlt
    rw [BitVec.toInt_ofInt]
    apply Int.bmod_eq_of_le
    · rw [Nat.pow_succ]
      push_cast
      omega
    · rw [Nat.pow_succ]
      push_cast
      omega
  rw [hhigh, toNat_ofInt_eq_emod]
  exact Int.ediv_mul_add_emod z (2 ^ (w + 1))

theorem halves_unsigned {z : Int} (hle : 0 ≤ z) (hlt : z < 2 ^ w * 2 ^ w) :
    ((BitVec.ofInt w (z / 2 ^ w)).toNat : Int) * 2 ^ w + (BitVec.ofInt w z).toNat = z := by
  have hpos : (0 : Int) < 2 ^ w := Int.pow_pos (by decide)
  have hhigh : z / 2 ^ w % 2 ^ w = z / 2 ^ w :=
    Int.emod_eq_of_lt (Int.ediv_nonneg hle (Int.le_of_lt hpos)) (Int.ediv_lt_of_lt_mul hpos hlt)
  rw [toNat_ofInt_eq_emod, toNat_ofInt_eq_emod, hhigh]
  exact Int.ediv_mul_add_emod z (2 ^ w)

/-- The product of a number with a sign and one of twice its range. -/
theorem product_bounds {p y z : Int} (hy : -p ≤ y ∧ y < p) (hz : -(2 * p) < z ∧ z < 2 * p) :
    -(p * (2 * p)) < y * z ∧ y * z < p * (2 * p) := by
  have hp : 0 < p := by omega
  apply abs_lt.1
  calc |y * z| = |y| * |z| := abs_mul y z
    _ ≤ p * |z| :=
      Int.mul_le_mul_of_nonneg_right (abs_le.2 ⟨hy.1, Int.le_of_lt hy.2⟩) (abs_nonneg z)
    _ < p * (2 * p) := Int.mul_lt_mul_of_pos_left (abs_lt.2 hz) hp

/-! ### Words -/

section Words

variable (a b : BitVec (w + 1))

theorem toInt_bounds : -2 ^ w ≤ a.toInt ∧ a.toInt < 2 ^ w :=
  ⟨BitVec.le_toInt a, BitVec.toInt_lt⟩

/-- The range of a factor, with or without a sign. -/
theorem factor_bounds {z : Int} (hz : z = b.toInt ∨ z = b.toNat) :
    -(2 * 2 ^ w) < z ∧ z < 2 * 2 ^ w := by
  have hpos : (0 : Int) < 2 ^ w := Int.pow_pos (by decide)
  rcases hz with rfl | rfl
  · obtain ⟨hle, hlt⟩ := toInt_bounds b
    constructor <;> omega
  · have hlt : (b.toNat : Int) < 2 ^ (w + 1) := by exact_mod_cast b.isLt
    rw [Int.pow_succ, Int.mul_comm] at hlt
    constructor <;> omega

theorem mul_eq_ofInt {y z : Int} (ha : a = BitVec.ofInt (w + 1) y)
    (hb : b = BitVec.ofInt (w + 1) z) : a * b = BitVec.ofInt (w + 1) (y * z) := by
  rw [BitVec.ofInt_mul, ← ha, ← hb]

theorem ofInt_toNat : b = BitVec.ofInt (w + 1) b.toNat := by
  rw [BitVec.ofInt_natCast, BitVec.ofNat_toNat, BitVec.setWidth_eq]

/-- The halves of the product of a signed word and a factor. -/
theorem product_halves {high : BitVec (w + 1)} {z : Int} (hz : z = b.toInt ∨ z = b.toNat)
    (hb : b = BitVec.ofInt (w + 1) z)
    (hhigh : high = BitVec.ofInt (w + 1) (a.toInt * z / 2 ^ (w + 1))) :
    high.toInt * 2 ^ (w + 1) + (a * b).toNat = a.toInt * z := by
  have hsize : (2 : Int) ^ (w + 1) = 2 * 2 ^ w := by rw [Int.pow_succ, Int.mul_comm]
  obtain ⟨hlt, hgt⟩ := product_bounds (toInt_bounds a) (factor_bounds b hz)
  rw [hhigh, mul_eq_ofInt a b (BitVec.ofInt_toInt).symm hb]
  apply halves_signed
  · rw [hsize]
    exact Int.le_of_lt hlt
  · rw [hsize]
    exact hgt

theorem sdiv_mul_add_srem : a = a.sdiv b * b + a.srem b := by
  have hb : b = BitVec.ofInt (w + 1) b.toInt := BitVec.ofInt_toInt.symm
  have hmul : a.sdiv b * b = BitVec.ofInt (w + 1) (a.toInt.tdiv b.toInt * b.toInt) :=
    mul_eq_ofInt _ _ (sdiv_eq_ofInt a b) hb
  rw [hmul, srem_eq_ofInt, ← BitVec.ofInt_add, Int.tdiv_mul_add_tmod, BitVec.ofInt_toInt]

theorem srem_bounds (hb : b ≠ 0) :
    |(a.srem b).toInt| < |b.toInt| ∧
      ((a.srem b).toInt = 0 ∨ (a.srem b).toInt.sign = a.toInt.sign) := by
  have hzero : b.toInt ≠ 0 := by
    intro h
    exact hb (BitVec.eq_of_toInt_eq (h.trans BitVec.toInt_zero.symm))
  rw [BitVec.toInt_srem]
  constructor
  · rw [Int.abs_eq_natAbs, Int.abs_eq_natAbs, Int.natAbs_tmod]
    exact_mod_cast Nat.mod_lt _ (Int.natAbs_pos.2 hzero)
  · by_cases hdvd : b.toInt ∣ a.toInt
    · exact .inl (Int.tmod_eq_zero_of_dvd hdvd)
    · right
      rw [Int.sign_tmod, if_neg hdvd]

theorem toInt_negOne : (-1#(w + 1)).toInt = -1 := by
  rw [BitVec.neg_one_eq_allOnes, BitVec.toInt_allOnes, if_pos (Nat.succ_pos w)]

theorem negOne_ne_zero : -1#(w + 1) ≠ 0 := by
  intro h
  have hzero : (-1#(w + 1)).toInt = 0 := by
    rw [h]
    exact BitVec.toInt_zero
  rw [toInt_negOne] at hzero
  cases hzero

/-- The operations on words obey the laws. -/
theorem laws_eval : Laws (fun op => op.eval a b) a b where
  product_signed := product_halves a b (.inl rfl) BitVec.ofInt_toInt.symm (highHalf_eq rfl rfl)
  product_mixed := product_halves a b (.inr rfl) (ofInt_toNat b)
    (highHalf_eq rfl (zeroExtend_eq_ofInt b _))
  product_unsigned := by
    have hhigh : mulhu.eval a b = BitVec.ofInt (w + 1) (a.toNat * b.toNat / 2 ^ (w + 1)) :=
      highHalf_eq (zeroExtend_eq_ofInt a _) (zeroExtend_eq_ofInt b _)
    have hlow : mul.eval a b = BitVec.ofInt (w + 1) (a.toNat * b.toNat) :=
      mul_eq_ofInt a b (ofInt_toNat a) (ofInt_toNat b)
    have hlt : a.toNat * b.toNat < 2 ^ (w + 1) * 2 ^ (w + 1) := Nat.mul_lt_mul'' a.isLt b.isLt
    have hhalves := halves_unsigned (w := w + 1) (z := a.toNat * b.toNat)
      (Int.mul_nonneg (Int.natCast_nonneg _) (Int.natCast_nonneg _)) (by exact_mod_cast hlt)
    rw [← hhigh, ← hlow] at hhalves
    exact_mod_cast hhalves
  division_unsigned hb := by
    have hdivu : divu.eval a b = a / b := if_neg hb
    have hremu : remu.eval a b = a % b := if_neg hb
    rw [hdivu, hremu, BitVec.toNat_udiv, BitVec.toNat_umod]
    have hpos : 0 < b.toNat := Nat.pos_of_ne_zero fun h => hb (BitVec.eq_of_toNat_eq h)
    exact ⟨(Nat.div_add_mod' a.toNat b.toNat).symm, Nat.mod_lt _ hpos⟩
  division_signed hb := by
    have hdiv : div.eval a b = a.sdiv b := if_neg hb
    have hrem : rem.eval a b = a.srem b := if_neg hb
    rw [hdiv, hrem]
    exact sdiv_mul_add_srem a b
  remainder hb := by
    have hrem : rem.eval a b = a.srem b := if_neg hb
    rw [hrem]
    exact srem_bounds a b hb
  truncates hb h := by
    have hdiv : div.eval a b = a.sdiv b := if_neg hb
    rw [hdiv]
    exact BitVec.toInt_sdiv_of_ne_or_ne a b h
  overflow ha hb := by
    subst ha hb
    -- The quotient would be one more than the greatest number, and wraps to the least.
    have hdiv : div.eval (BitVec.intMin (w + 1)) (-1#(w + 1)) = _ := if_neg negOne_ne_zero
    have hrem : rem.eval (BitVec.intMin (w + 1)) (-1#(w + 1)) = _ := if_neg negOne_ne_zero
    refine ⟨hdiv.trans BitVec.intMin_sdiv_neg_one, hrem.trans (BitVec.eq_of_toInt_eq ?_)⟩
    rw [BitVec.toInt_srem, toInt_negOne, Int.tmod_neg, Int.tmod_one]
    exact BitVec.toInt_zero.symm
  by_zero hb := ⟨if_pos hb, if_pos hb, if_pos hb, if_pos hb⟩
  shift_left := by
    show (a <<< (b.toNat % (w + 1))).toNat = _
    rw [BitVec.toNat_shiftLeft, Nat.shiftLeft_eq]
  shift_right := by
    show (a >>> (b.toNat % (w + 1))).toNat = _
    rw [BitVec.toNat_ushiftRight, Nat.shiftRight_eq_div_pow]
  shift_signed := by
    show (a.sshiftRight (b.toNat % (w + 1))).toInt = _
    rw [BitVec.toInt_sshiftRight, Int.shiftRight_eq_div_pow]
    norm_cast
  less_signed := by
    show (if a.slt b then _ else _) = _
    simp only [BitVec.slt_eq_decide, decide_eq_true_eq]
  less_unsigned := by
    show (if a.ult b then _ else _) = _
    simp only [BitVec.ult_eq_decide, decide_eq_true_eq]

end Words

/-! ### Low halves -/

variable (op : AluOp) (a b : Word)

theorem setWidth_execute : (op.execute true a b).setWidth 32 =
    op.eval (a.setWidth 32) (b.setWidth 32) :=
  setWidth_signExtend (by decide) _

/-- On low halves the result is the sign-extended result of narrow words. -/
theorem execute_narrow :
    op.execute true a b = ((op.execute true a b).setWidth 32).signExtend 64 := by
  rw [setWidth_execute]
  rfl

theorem execute_congr {c d : Word} (hac : c.setWidth 32 = a.setWidth 32)
    (hbd : d.setWidth 32 = b.setWidth 32) : op.execute true c d = op.execute true a b := by
  show (op.eval (c.setWidth 32) (d.setWidth 32)).signExtend 64 = _
  rw [hac, hbd]
  rfl

end Hart.AluOp
