/-
The arithmetic unit without overflow.

`AluOp.execute?` computes like `AluOp.execute` with steps that may fail: a product that
its type does not hold, a division by zero, and a shift by the whole width or more give
no result.

* `AluOp.execute?_eq` — no step fails;
* `AluOp.execute_laws` — the unit obeys the laws at both widths.

Design notes: additions, subtractions and the low half of a product wrap by intent, and
so does the quotient of the least number by -1.  The high halves are cut from products of
twice the width, which are not meant to wrap.
-/
import Hart.Proofs.Alu.Laws

namespace Hart

/-! ### Steps that may fail -/

namespace Checked

variable {n : Nat}

/-- A signed product that must not overflow. -/
def mulSigned? (x y : BitVec n) : Option (BitVec n) :=
  if x.smulOverflow y then none else some (x * y)

/-- An unsigned product that must not overflow. -/
def mulUnsigned? (x y : BitVec n) : Option (BitVec n) :=
  if x.umulOverflow y then none else some (x * y)

/-- A division, `f`, that must not be by zero. -/
def divide? (f : BitVec n → BitVec n → BitVec n) (x y : BitVec n) : Option (BitVec n) :=
  if y = 0 then none else some (f x y)

/-- A shift, `f`, that must be by less than the width. -/
def shift? (f : BitVec n → Nat → BitVec n) (x : BitVec n) (amount : Nat) : Option (BitVec n) :=
  if amount < n then some (f x amount) else none

end Checked

namespace AluOp

open Checked Isa

variable {w : Nat}

/-- The high half of a product, by a shift, `f`, over its low half. -/
def highHalf? (f : BitVec (2 * w) → Nat → BitVec (2 * w)) (p : Option (BitVec (2 * w))) :
    Option (BitVec w) := do
  let high ← shift? f (← p) w
  some (high.setWidth w)

/-- An operation on words in steps that may fail.  The amount of a shift is masked. -/
def eval? (op : AluOp) (a b : BitVec w) : Option (BitVec w) :=
  let amount := (b &&& BitVec.ofNat w (w - 1)).toNat
  match op with
  | mulh => highHalf? .sshiftRight (mulSigned? (a.signExtend (2 * w)) (b.signExtend (2 * w)))
  | mulhsu => highHalf? .sshiftRight (mulSigned? (a.signExtend (2 * w)) (b.zeroExtend (2 * w)))
  | mulhu => highHalf? .ushiftRight (mulUnsigned? (a.zeroExtend (2 * w)) (b.zeroExtend (2 * w)))
  | div => if b = 0 then some (BitVec.allOnes w) else divide? .sdiv a b
  | divu => if b = 0 then some (BitVec.allOnes w) else divide? .udiv a b
  | rem => if b = 0 then some a else divide? .srem a b
  | remu => if b = 0 then some a else divide? .umod a b
  | sll => shift? .shiftLeft a amount
  | srl => shift? .ushiftRight a amount
  | sra => shift? .sshiftRight a amount
  | add => some (a + b)
  | sub => some (a - b)
  | mul => some (a * b)
  | slt => some (if a.slt b then 1 else 0)
  | sltu => some (if a.ult b then 1 else 0)
  | xor => some (a ^^^ b)
  | or => some (a ||| b)
  | and => some (a &&& b)

/-- An operation on slots in steps that may fail. -/
def execute? (op : AluOp) (narrow : Bool) (a b : Word) : Option Word :=
  if narrow then (op.eval? (a.setWidth 32) (b.setWidth 32)).map (·.signExtend 64)
  else op.eval? a b

/-! ### No step fails -/

theorem sshiftRight_high (p : BitVec (2 * w)) :
    (p.sshiftRight w).setWidth w = p.extractLsb' w w := by
  apply BitVec.eq_of_getLsbD_eq
  intro i hi
  have hsum : w + i < 2 * w := by omega
  have hnot : ¬ 2 * w ≤ i := by omega
  simp only [BitVec.getLsbD_setWidth, BitVec.getLsbD_sshiftRight, BitVec.getLsbD_extractLsb', hi,
    hsum, hnot, decide_true, decide_false, Bool.not_false, Bool.true_and, if_true]

theorem ushiftRight_high (p : BitVec (2 * w)) : (p >>> w).setWidth w = p.extractLsb' w w := by
  apply BitVec.eq_of_getLsbD_eq
  intro i hi
  simp only [BitVec.getLsbD_setWidth, BitVec.getLsbD_ushiftRight, BitVec.getLsbD_extractLsb', hi,
    decide_true, Bool.true_and]

section Steps

variable (a b : BitVec (w + 1))

theorem toInt_zeroExtend : (b.zeroExtend (2 * (w + 1))).toInt = b.toNat := by
  have hnat : (b.zeroExtend (2 * (w + 1))).toNat = b.toNat :=
    BitVec.toNat_setWidth_of_le (by omega)
  have hlt : 2 * b.toNat < 2 ^ (2 * (w + 1)) := calc
    2 * b.toNat < 2 * 2 ^ (w + 1) := Nat.mul_lt_mul_of_pos_left b.isLt (by decide)
    _ = 2 ^ (w + 1 + 1) := (Nat.pow_succ').symm
    _ ≤ 2 ^ (2 * (w + 1)) := Nat.pow_le_pow_right (by decide) (by omega)
  rw [← hnat] at hlt ⊢
  exact BitVec.toInt_eq_toNat_of_lt hlt

/-- Twice the width holds the product of a signed word and a factor. -/
theorem mulSigned?_eq {y : BitVec (2 * (w + 1))} (hy : y.toInt = b.toInt ∨ y.toInt = b.toNat) :
    mulSigned? (a.signExtend (2 * (w + 1))) y = some (a.signExtend (2 * (w + 1)) * y) := by
  have hsize : (2 : Int) ^ (2 * (w + 1) - 1) = 2 ^ w * (2 * 2 ^ w) := by
    have hbits : 2 * (w + 1) - 1 = w + (w + 1) := by omega
    rw [hbits, pow_add, pow_succ']
  -- The bounds are those of a number with a sign in twice the width.
  obtain ⟨hlt, hgt⟩ := product_bounds (toInt_bounds a) (factor_bounds b hy)
  have ha : (a.signExtend (2 * (w + 1))).toInt = a.toInt :=
    BitVec.toInt_signExtend_of_le (by omega)
  apply if_neg
  simp only [BitVec.smulOverflow, ha, hsize, Bool.or_eq_true, decide_eq_true_eq]
  omega

theorem mulUnsigned?_eq :
    mulUnsigned? (a.zeroExtend (2 * (w + 1))) (b.zeroExtend (2 * (w + 1))) =
      some (a.zeroExtend (2 * (w + 1)) * b.zeroExtend (2 * (w + 1))) := by
  have hnat (v : BitVec (w + 1)) : (v.zeroExtend (2 * (w + 1))).toNat = v.toNat :=
    BitVec.toNat_setWidth_of_le (by omega)
  have hlt : a.toNat * b.toNat < 2 ^ (2 * (w + 1)) := by
    rw [Nat.two_mul, Nat.pow_add]
    exact Nat.mul_lt_mul'' a.isLt b.isLt
  apply if_neg
  rw [BitVec.umulOverflow, hnat, hnat, decide_eq_true_eq]
  exact Nat.not_le.2 hlt

theorem highHalf?_eq {f : BitVec (2 * (w + 1)) → Nat → BitVec (2 * (w + 1))}
    (hf : ∀ p, (f p (w + 1)).setWidth (w + 1) = p.extractLsb' (w + 1) (w + 1))
    (p : BitVec (2 * (w + 1))) :
    highHalf? f (some p) = some (p.extractLsb' (w + 1) (w + 1)) := by
  have hshift : shift? f p (w + 1) = some (f p (w + 1)) := if_pos (by omega)
  rw [← hf, highHalf?]
  dsimp only [bind, Option.bind_some]
  rw [hshift]
  rfl

theorem masked_amount (hw : 2 ^ (w + 1).log2 = w + 1) :
    (b &&& BitVec.ofNat (w + 1) (w + 1 - 1)).toNat = b.toNat % (w + 1) := by
  -- One less than a power of two masks the bits below it.
  have hmask := Nat.and_two_pow_sub_one_eq_mod b.toNat (w + 1).log2
  rw [hw] at hmask
  have hlt : w + 1 - 1 < 2 ^ (w + 1) := Nat.lt_of_succ_lt Nat.lt_two_pow_self
  rw [BitVec.toNat_and, BitVec.toNat_ofNat, Nat.mod_eq_of_lt hlt, hmask]

theorem shift?_eq (f : BitVec (w + 1) → Nat → BitVec (w + 1)) (hw : 2 ^ (w + 1).log2 = w + 1) :
    shift? f a (b &&& BitVec.ofNat (w + 1) (w + 1 - 1)).toNat =
      some (f a (b.toNat % (w + 1))) := by
  rw [masked_amount b hw]
  exact if_pos (Nat.mod_lt _ (Nat.succ_pos w))

/-- A zero divisor is caught before the division. -/
theorem divide?_eq (f : BitVec (w + 1) → BitVec (w + 1) → BitVec (w + 1)) (c : BitVec (w + 1)) :
    (if b = 0 then some c else divide? f a b) = some (if b = 0 then c else f a b) := by
  by_cases hb : b = 0
  · rw [if_pos hb, if_pos hb]
  · rw [if_neg hb, if_neg hb]
    exact if_neg hb

theorem eval?_eq (hw : 2 ^ (w + 1).log2 = w + 1) (op : AluOp) :
    op.eval? a b = some (op.eval a b) := by
  have hb : (b.signExtend (2 * (w + 1))).toInt = b.toInt :=
    BitVec.toInt_signExtend_of_le (by omega)
  cases op with
  | mulh =>
    show highHalf? .sshiftRight (mulSigned? _ _) = _
    rw [mulSigned?_eq a b (.inl hb)]
    exact highHalf?_eq sshiftRight_high _
  | mulhsu =>
    show highHalf? .sshiftRight (mulSigned? _ _) = _
    rw [mulSigned?_eq a b (.inr (toInt_zeroExtend b))]
    exact highHalf?_eq sshiftRight_high _
  | mulhu =>
    show highHalf? .ushiftRight (mulUnsigned? _ _) = _
    rw [mulUnsigned?_eq]
    exact highHalf?_eq ushiftRight_high _
  | div => exact divide?_eq a b .sdiv _
  | divu => exact divide?_eq a b .udiv _
  | rem => exact divide?_eq a b .srem _
  | remu => exact divide?_eq a b .umod _
  | sll => exact shift?_eq a b .shiftLeft hw
  | srl => exact shift?_eq a b .ushiftRight hw
  | sra => exact shift?_eq a b .sshiftRight hw
  | add | sub | mul | slt | sltu | xor | or | and => rfl

end Steps

theorem execute?_eq (op : AluOp) (narrow : Bool) (a b : Word) :
    op.execute? narrow a b = some (op.execute narrow a b) := by
  cases narrow with
  | false => exact eval?_eq a b (by decide) op
  | true =>
    show (op.eval? (a.setWidth 32) (b.setWidth 32)).map _ = _
    rw [eval?_eq _ _ (by decide)]
    rfl

/-- The unit obeys the laws on whole slots and on low halves, where the result is
sign-extended and nothing above is looked at, and no step of its computations fails. -/
theorem execute_laws (a b : Word) :
    Laws (fun op => op.execute false a b) a b ∧
    Laws (fun op => (op.execute true a b).setWidth 32) (a.setWidth 32) (b.setWidth 32) ∧
    (∀ op : AluOp, op.execute true a b = ((op.execute true a b).setWidth 32).signExtend 64) ∧
    (∀ (op : AluOp) (c d : Word), c.setWidth 32 = a.setWidth 32 → d.setWidth 32 = b.setWidth 32 →
      op.execute true c d = op.execute true a b) ∧
    ∀ (op : AluOp) (narrow : Bool), op.execute? narrow a b = some (op.execute narrow a b) := by
  refine ⟨laws_eval a b, ?_, fun op => execute_narrow op a b,
    fun op c d hac hbd => execute_congr op a b hac hbd, fun op narrow => execute?_eq op narrow a b⟩
  simp only [setWidth_execute]
  exact laws_eval (a.setWidth 32) (b.setWidth 32)

end AluOp

end Hart
