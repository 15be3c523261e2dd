/-
Slots and units of the machine against words and operations of the instruction set.

The machine computes in slots of 64 bits, at either width.  `Xlen.word` is the word of
the width that a slot holds, and everything the machine does to slots is something
the instruction set does to their words:

* `Isa.eval_eq_compute` — the operations of the arithmetic unit;
* `Isa.word_arithmetic` — the unit as the machine uses it, through sign-extended low
  halves on a narrow machine and in W-suffix forms;
* `Isa.holds_eq_taken` — the conditions of branches.
-/
import Hart.Machine.Step
import Hart.Proofs.Isa.State
import Hart.Proofs.Memory.Cells

namespace Hart

/-! ### Words of slots -/

namespace Xlen

/-- The word of the width in the low bits of a slot. -/
def word (x : Xlen) (v : Word) : BitVec x.bits := v.setWidth x.bits

theorem bits_le (x : Xlen) : x.bits ≤ 64 := by
  cases x <;> decide

variable {x : Xlen}

theorem toNat_word (v : Word) : (x.word v).toNat = x.wrap v.toNat := by
  rw [word, BitVec.toNat_setWidth, wrap, space_eq]

/-- Masking leaves the word alone and clears what lies above it. -/
theorem mask_eq (v : Word) : x.mask v = (x.word v).setWidth 64 := by
  apply BitVec.eq_of_toNat_eq
  have hlt : x.wrap v.toNat < 2 ^ 64 := Nat.lt_of_lt_of_le (x.wrap_lt _) x.space_le_wordLimit
  rw [toNat_mask, BitVec.toNat_setWidth, toNat_word, Nat.mod_eq_of_lt hlt]

theorem mask_and_mask (x : Xlen) (v c : Word) : x.mask (x.mask v &&& c) = x.mask v &&& c := by
  cases x with
  | rv32 =>
    show v &&& 0xFFFFFFFF#64 &&& c &&& 0xFFFFFFFF#64 = v &&& 0xFFFFFFFF#64 &&& c
    rw [BitVec.and_assoc, BitVec.and_assoc, BitVec.and_comm c, ← BitVec.and_assoc (0xFFFFFFFF#64),
      BitVec.and_self, BitVec.and_assoc]
  | rv64 => rfl

theorem word_setWidth (v : BitVec x.bits) : x.word (v.setWidth 64) = v := by
  rw [word, BitVec.setWidth_setWidth_of_le v x.bits_le, BitVec.setWidth_eq]

@[simp] theorem word_mask (v : Word) : x.word (x.mask v) = x.word v := by
  rw [mask_eq, word_setWidth]

theorem word_add (a b : Word) : x.word (a + b) = x.word a + x.word b :=
  BitVec.setWidth_add a b x.bits_le

theorem word_ofNat (n : Nat) : x.word (BitVec.ofNat 64 n) = BitVec.ofNat x.bits n :=
  BitVec.setWidth_ofNat_of_le x.bits_le n

theorem word_four : x.word 4 = 4 :=
  word_ofNat 4

/-- The word of a sign-extended field is the field sign-extended. -/
theorem word_signExtend {n : Nat} (v : BitVec n) : x.word (v.signExtend 64) = v.signExtend x.bits := by
  have hle := x.bits_le
  -- Bit by bit: below the width both take the same bit of the field or its sign.
  apply BitVec.eq_of_getLsbD_eq
  intro i hi
  have hi' : i < 64 := by omega
  simp only [word, BitVec.getLsbD_setWidth, BitVec.getLsbD_signExtend, hi, hi', decide_true,
    Bool.true_and]

theorem word_clearLow (v : Word) : x.word (v &&& ~~~1#64) = x.word v &&& ~~~1 := by
  rw [word, BitVec.setWidth_and, BitVec.setWidth_not x.bits_le]
  exact congrArg (fun one => _ &&& ~~~one) (word_ofNat (x := x) 1)

end Xlen

namespace Isa

variable {w : Nat}

/-! ### High halves -/

theorem emod_mul_ediv_emod (z : Int) {k : Int} (hk : k ≠ 0) :
    z % (k * k) / k % k = z / k % k := by
  have hz : z % (k * k) = z - k * (k * (z / (k * k))) := by
    rw [Int.emod_def, Int.mul_assoc]
  rw [hz, Int.sub_mul_ediv_left _ _ hk, Int.sub_mul_emod_self_left]

/-- The high half of a number of two words is the number over the size of a word. -/
theorem extractLsb'_ofInt (z : Int) :
    (BitVec.ofInt (2 * w) z).extractLsb' w w = BitVec.ofInt w (z / 2 ^ w) := by
  have hpos (n : Nat) : ((2 ^ n : Nat) : Int) ≠ 0 :=
    Int.natCast_ne_zero.2 (Nat.ne_of_gt (Nat.two_pow_pos n))
  have hsquare : ((2 ^ (2 * w) : Nat) : Int) = (2 ^ w : Nat) * (2 ^ w : Nat) := by
    rw [Nat.two_mul, Nat.pow_add, Int.natCast_mul]
  apply BitVec.eq_of_toNat_eq
  rw [BitVec.extractLsb'_toNat, BitVec.toNat_ofInt, BitVec.toNat_ofInt, Nat.shiftRight_eq_div_pow]
  -- Both sides are natural numbers, and over the integers their digits compare.
  apply Int.ofNat.inj
  show ((_ : Nat) : Int) = ((_ : Nat) : Int)
  rw [Int.natCast_emod, Int.natCast_ediv, Int.toNat_of_nonneg (Int.emod_nonneg _ (hpos _)),
    Int.toNat_of_nonneg (Int.emod_nonneg _ (hpos _)), hsquare, emod_mul_ediv_emod z (hpos w),
    Int.natCast_pow]
  rfl

theorem highHalf_eq {a b : BitVec (2 * w)} {y z : Int} (ha : a = BitVec.ofInt (2 * w) y)
    (hb : b = BitVec.ofInt (2 * w) z) : AluOp.highHalf a b = BitVec.ofInt w (y * z / 2 ^ w) := by
  rw [AluOp.highHalf, ha, hb, ← BitVec.ofInt_mul, extractLsb'_ofInt]

theorem zeroExtend_eq_ofInt (a : BitVec w) (v : Nat) :
    a.zeroExtend v = BitVec.ofInt v a.toNat := by
  rw [BitVec.ofInt_natCast, BitVec.ofNat_toNat]

/-! ### Operations -/

theorem sdiv_eq_ofInt (a b : BitVec w) : a.sdiv b = BitVec.ofInt w (a.toInt.tdiv b.toInt) := by
  apply BitVec.eq_of_toInt_eq
  rw [BitVec.toInt_sdiv, BitVec.toInt_ofInt]

theorem srem_eq_ofInt (a b : BitVec w) : a.srem b = BitVec.ofInt w (a.toInt.tmod b.toInt) := by
  rw [← BitVec.toInt_srem, BitVec.ofInt_toInt]

/-- The low bits of a shift amount are its remainder by a width that is a power of two. -/
theorem shiftAmount_eq (hw : 2 ^ w.log2 = w) (b : BitVec w) : shiftAmount b = b.toNat % w := by
  rw [shiftAmount, BitVec.toNat_setWidth, hw]

/-- The arithmetic unit computes what the instruction set says. -/
theorem eval_eq_compute (hw : 2 ^ w.log2 = w) (op : AluOp) (a b : BitVec w) :
    op.eval a b = compute op a b := by
  have hones : BitVec.allOnes w = -1 := BitVec.neg_one_eq_allOnes.symm
  cases op with
  | add | sub | xor | or | and | mul => rfl
  | sll => rw [AluOp.eval, compute, shiftAmount_eq hw]
  | slt => simp only [AluOp.eval, compute, BitVec.slt_eq_decide, decide_eq_true_eq]
  | sltu => simp only [AluOp.eval, compute, BitVec.ult_eq_decide, decide_eq_true_eq]
  -- Shifting right divides, of the number for `srl` and of the signed number for `sra`.
  | srl =>
    rw [AluOp.eval, compute, shiftAmount_eq hw, ← Nat.shiftRight_eq_div_pow,
      ← BitVec.toNat_ushiftRight, BitVec.ofNat_toNat, BitVec.setWidth_eq]
  | sra =>
    rw [AluOp.eval, compute, shiftAmount_eq hw, BitVec.sshiftRight, Int.shiftRight_eq_div_pow]
    norm_cast
  | mulh => exact highHalf_eq rfl rfl
  | mulhsu => exact highHalf_eq rfl (zeroExtend_eq_ofInt b _)
  | mulhu =>
    rw [AluOp.eval, highHalf_eq (zeroExtend_eq_ofInt a _) (zeroExtend_eq_ofInt b _), compute,
      ← BitVec.ofInt_natCast]
    norm_cast
  | div => rw [AluOp.eval, compute, hones, sdiv_eq_ofInt]
  | divu => rw [AluOp.eval, compute, hones, BitVec.udiv_eq, BitVec.udiv_def]
  | rem => rw [AluOp.eval, compute, srem_eq_ofInt]
  | remu => rw [AluOp.eval, compute, BitVec.umod_eq, BitVec.umod_def]

variable {x : Xlen}

/-- The arithmetic unit of the machine computes on words, whatever lies above them. -/
theorem word_arithmetic (op : AluOp) (word : Bool) (a b : Word) :
    x.word (StepM.arithmetic x op word a b) = result x op word (x.word a) (x.word b) := by
  have hnarrow (v : Word) : (x.word v).setWidth 32 = v.setWidth 32 :=
    BitVec.setWidth_setWidth_of_le v (by cases x <;> decide)
  by_cases hword : word = true
  · rw [StepM.arithmetic, AluOp.execute, hword, Bool.true_or, if_pos rfl, result, if_pos rfl,
      Xlen.word_signExtend, hnarrow, hnarrow, eval_eq_compute (by decide)]
  · rw [Bool.not_eq_true] at hword
    rw [StepM.arithmetic, hword, Bool.false_or, result, if_neg (by decide)]
    cases x with
    | rv32 =>
      -- The result of the narrow unit is sign-extended, and its low half is the word.
      show Xlen.rv32.word ((op.eval (a.setWidth 32) (b.setWidth 32)).signExtend 64) = _
      rw [Xlen.word_signExtend, eval_eq_compute (by decide)]
      exact BitVec.signExtend_eq _
    | rv64 =>
      have hword (v : Word) : Xlen.rv64.word v = v := BitVec.setWidth_eq v
      rw [hword, hword, hword]
      exact eval_eq_compute (by decide) op a b

/-- Branches compare words. -/
theorem holds_eq_taken (c : BranchCondition) (a b : Word) :
    c.holds x a b = taken (x.word a) (x.word b) c := by
  have heq : x.mask a = x.mask b ↔ x.word a = x.word b := by
    rw [← BitVec.toNat_inj, ← BitVec.toNat_inj, Xlen.toNat_mask, Xlen.toNat_mask, Xlen.toNat_word,
      Xlen.toNat_word]
  have hsigned (v : Word) : x.signed v = (x.word v).toInt := by
    cases x with
    | rv32 => rfl
    | rv64 => exact congrArg BitVec.toInt (BitVec.setWidth_eq v).symm
  cases c with
  | eq => exact Bool.eq_iff_iff.2 (by simpa [BranchCondition.holds, taken] using heq)
  | ne => exact Bool.eq_iff_iff.2 (by simpa [BranchCondition.holds, taken] using not_congr heq)
  | lt | ge => rw [BranchCondition.holds, taken, hsigned, hsigned]
  | ltu => rw [BranchCondition.holds, taken, BitVec.ult_eq_decide, Xlen.toNat_mask, Xlen.toNat_mask,
      Xlen.toNat_word, Xlen.toNat_word]
  | geu => rw [BranchCondition.holds, taken, BitVec.ule_eq_decide, Xlen.toNat_mask, Xlen.toNat_mask,
      Xlen.toNat_word, Xlen.toNat_word]

/-! ### Shifts by an immediate -/

/-- The operations that take a shift amount. -/
def IsShift (op : AluOp) : Prop := op = .sll ∨ op = .srl ∨ op = .sra

/-- A shift looks at the low bits of its amount only. -/
theorem compute_congr {op : AluOp} (hop : IsShift op) (a : BitVec w) {b c : BitVec w}
    (h : shiftAmount b = shiftAmount c) : compute op a b = compute op a c := by
  rcases hop with rfl | rfl | rfl <;> simp only [compute, h]

/-- The immediate of a shift is its amount with a function code above. -/
theorem shiftAmount_immediate (hlog : w.log2 ≤ 6) (hw : 6 ≤ w) (code amount : BitVec 6) :
    shiftAmount ((code ++ amount).signExtend w) = shiftAmount (amount.setWidth w) := by
  -- The bits that count are among the six of the amount.
  refine congrArg BitVec.toNat (BitVec.eq_of_getLsbD_eq fun i hi => ?_)
  have hi6 : i < 6 := by omega
  have hi12 : i < 6 + 6 := by omega
  have hiw : i < w := by omega
  simp only [BitVec.getLsbD_setWidth, BitVec.getLsbD_signExtend, BitVec.getLsbD_append, hi, hi6,
    hi12, hiw, decide_true, Bool.true_and, if_true]

theorem result_shift {op : AluOp} (hop : IsShift op) (word : Bool) (a : BitVec x.bits)
    (code amount : BitVec 6) :
    result x op word a ((code ++ amount).signExtend x.bits) =
      result x op word a (amount.setWidth x.bits) := by
  by_cases hword : word = true
  · have hle : 32 ≤ x.bits := by cases x <;> decide
    have hnarrow : ((code ++ amount).signExtend x.bits).setWidth 32 =
        (code ++ amount).signExtend 32 := by
      apply BitVec.eq_of_getLsbD_eq
      intro i hi
      have hi' : i < x.bits := by omega
      simp only [BitVec.getLsbD_setWidth, BitVec.getLsbD_signExtend, hi, hi', decide_true,
        Bool.true_and]
    have hshamt : (amount.setWidth x.bits).setWidth 32 = amount.setWidth 32 :=
      BitVec.setWidth_setWidth (by omega)
    rw [result, result, if_pos hword, if_pos hword, hnarrow, hshamt,
      compute_congr hop _ (shiftAmount_immediate (by decide) (by decide) code amount)]
  · rw [result, result, if_neg hword, if_neg hword]
    refine compute_congr hop a (shiftAmount_immediate ?_ ?_ code amount)
    · cases x <;> decide
    · cases x <;> decide

end Isa

end Hart
