/-
The arithmetic logic unit.

`AluOp.eval` computes an operation on words of any width: addition, logic,
comparison, shifts, and the multiplication and division family.  Nothing traps:
a quotient by zero is all ones, a remainder by zero is the dividend, and the
least number divided by -1 is itself with remainder zero.

The machine uses it at two widths:

* `AluOp.execute` — on whole slots, or on their low halves with the result
  sign-extended, the form of a 32-bit machine and of the W-suffix instructions;
* `AluUnit.execute` — the same through one of the three units, which answers
  zero for an operation of another.
-/
import Hart.Xlen

namespace Hart

inductive AluOp where
  | add | sub | sll | slt | sltu | xor | srl | sra | or | and
  /-- The low half of a product. -/
  | mul
  /-- The high half of a product of signed numbers. -/
  | mulh
  /-- The high half of a product of a signed and an unsigned number. -/
  | mulhsu
  /-- The high half of a product of unsigned numbers. -/
  | mulhu
  | div | divu | rem | remu
  deriving DecidableEq, Repr, Inhabited

/-- The part of the unit that an operation belongs to. -/
inductive AluUnit where
  | arithmetic | logic | shifts
  deriving DecidableEq, Repr, Inhabited

namespace AluOp

/-- The unit that carries out an operation. -/
def unit : AluOp → AluUnit
  | add | sub | mul | mulh | mulhsu | mulhu | div | divu | rem | remu => .arithmetic
  | slt | sltu | xor | or | and => .logic
  | sll | srl | sra => .shifts

/-- The high half of a product of two factors that were extended to twice the
width. -/
def highHalf {w : Nat} (a b : BitVec (2 * w)) : BitVec w :=
  (a * b).extractLsb' w w

/-- An operation on words of width `w`; a shift takes its amount modulo `w`. -/
def eval {w : Nat} (op : AluOp) (a b : BitVec w) : BitVec w :=
  match op with
  | add => a + b
  | sub => a - b
  | sll => a <<< (b.toNat % w)
  | slt => if a.slt b then 1 else 0
  | sltu => if a.ult b then 1 else 0
  | xor => a ^^^ b
  | srl => a >>> (b.toNat % w)
  | sra => a.sshiftRight (b.toNat % w)
  | or => a ||| b
  | and => a &&& b
  | mul => a * b
  | mulh => highHalf (a.signExtend (2 * w)) (b.signExtend (2 * w))
  | mulhsu => highHalf (a.signExtend (2 * w)) (b.zeroExtend (2 * w))
  | mulhu => highHalf (a.zeroExtend (2 * w)) (b.zeroExtend (2 * w))
  | div => if b = 0 then BitVec.allOnes w else a.sdiv b
  | divu => if b = 0 then BitVec.allOnes w else a.udiv b
  | rem => if b = 0 then a else a.srem b
  | remu => if b = 0 then a else a.umod b

/-- An operation on slots: on their low halves with a sign-extended result when
`narrow`, otherwise on all 64 bits. -/
def execute (op : AluOp) (narrow : Bool) (a b : Word) : Word :=
  if narrow then (op.eval (a.setWidth 32) (b.setWidth 32)).signExtend 64 else op.eval a b

end AluOp

/-- An operation through one unit: zero when it belongs to another. -/
def AluUnit.execute (u : AluUnit) (op : AluOp) (narrow : Bool) (a b : Word) : Word :=
  if op.unit = u then op.execute narrow a b else 0

end Hart
