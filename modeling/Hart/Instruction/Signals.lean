/-
Control signals of an instruction.

`Instruction.signals` describes what the datapath does for an instruction: the
operation and operands of the arithmetic unit, the memory access, the register
write, and the kind of control transfer.  It is a summary for inspection; the
machine executes the instruction itself.
-/
import Hart.Instruction.Basic

namespace Hart

/-- The source of the arithmetic unit's first operand. -/
inductive FirstOperand where
  | reg1
  | pc
  | zero
  deriving DecidableEq, Repr, Inhabited

/-- The source of the arithmetic unit's second operand. -/
inductive SecondOperand where
  | imm | reg2
  deriving DecidableEq, Repr, Inhabited

inductive JumpKind where
  | jal | jalr
  deriving DecidableEq, Repr, Inhabited

inductive SystemOp where
  | ecall | ebreak | fence
  deriving DecidableEq, Repr, Inhabited

/-- What the datapath does for an instruction.  The defaults are an addition of
`rs1` and the immediate whose result goes nowhere. -/
structure Signals where
  /-- The class under which the instruction is counted. -/
  category : InstructionClass := .alu
  regWrite : Bool := false
  memRead : Bool := false
  memWrite : Bool := false
  /-- The size of the access, if there is one. -/
  width : Option AccessWidth := none
  /-- A load sign-extends. -/
  signedLoad : Bool := false
  /-- The operation works on the low halves of the registers of a 64-bit machine. -/
  wordOp : Bool := false
  alu : AluOp := .add
  first : FirstOperand := .reg1
  second : SecondOperand := .imm
  branch : Option BranchCondition := none
  jump : Option JumpKind := none
  system : Option SystemOp := none
  deriving DecidableEq, Repr, Inhabited

def Instruction.signals (i : Instruction) : Signals :=
  let base : Signals := { category := i.category }
  match i with
  | .lui .. => { base with regWrite := true, first := .zero }
  | .auipc .. => { base with regWrite := true, first := .pc }
  | .jal .. => { base with regWrite := true, jump := some .jal }
  | .jalr .. => { base with regWrite := true, jump := some .jalr }
  | .branch condition .. => { base with second := .reg2, branch := some condition }
  | .load width signed .. =>
    { base with regWrite := true, memRead := true, width := some width, signedLoad := signed }
  | .store width .. => { base with memWrite := true, width := some width }
  | .opImm alu word .. => { base with regWrite := true, wordOp := word, alu := alu }
  | .op alu word .. =>
    { base with regWrite := true, wordOp := word, alu := alu, second := .reg2 }
  | .fence => { base with system := some .fence }
  | .ecall => { base with system := some .ecall }
  | .ebreak => { base with system := some .ebreak }

end Hart
