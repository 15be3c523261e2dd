/-
Conditions of conditional branches.

`BranchCondition.holds` compares two registers at the width of the machine:
both as unsigned numbers for equality and the unsigned orders, both as signed
numbers for the signed orders.
-/
import Hart.Xlen

namespace Hart

/-- What a conditional branch tests. -/
inductive BranchCondition where
  | eq | ne
  | lt
  | ge
  | ltu
  | geu
  deriving DecidableEq, Repr, Inhabited

namespace BranchCondition

/-- All conditions, in the order of their encodings. -/
def all : List BranchCondition := [eq, ne, lt, ge, ltu, geu]

/-- Whether the branch is taken for the register values `a` and `b`. -/
def holds (x : Xlen) (c : BranchCondition) (a b : Word) : Bool :=
  match c with
  | eq => x.mask a == x.mask b
  | ne => x.mask a != x.mask b
  | lt => x.signed a < x.signed b
  | ge => x.signed b ≤ x.signed a
  | ltu => (x.mask a).ult (x.mask b)
  | geu => (x.mask b).ule (x.mask a)

end BranchCondition

end Hart
