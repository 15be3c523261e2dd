/-
Instructions.

`Instruction` lists what the machine executes: the base integer set, the
multiply and divide extension, fences, and the two environment instructions.
`Instruction.ofWord?` reads one from a word:

* a word outside this set is none;
* the doubleword accesses, `lwu`, the W-suffix forms and 6-bit shift amounts
  exist on a 64-bit machine only.

Design notes: an instruction keeps its operands, so that executing it never goes
back to the word.  Fences carry nothing, since a single hart that executes in
order has nothing to wait for.
-/
import Hart.Alu
import Hart.Branch
import Hart.Instruction.Fields

namespace Hart

inductive AccessWidth where
  | byte | half | word | double
  deriving DecidableEq, Repr, Inhabited

def AccessWidth.bytes : AccessWidth → Nat
  | byte => 1
  | half => 2
  | word => 4
  | double => 8

/-- The statistics count instructions by these classes. -/
inductive InstructionClass where
  | alu
  | load | store
  | branch
  | jump
  /-- Environment instructions and fences. -/
  | system
  deriving DecidableEq, Repr, Inhabited

/-- An instruction with its operands. -/
inductive Instruction where
  /-- Sets `rd` to the immediate. -/
  | lui (rd : Register) (imm : Word)
  /-- Sets `rd` to the immediate added to the instruction's address. -/
  | auipc (rd : Register) (imm : Word)
  /-- Jumps by an offset and links. -/
  | jal (rd : Register) (offset : Word)
  /-- Jumps to a register plus an offset and links. -/
  | jalr (rd rs1 : Register) (offset : Word)
  /-- Jumps by an offset if a condition holds. -/
  | branch (condition : BranchCondition) (rs1 rs2 : Register) (offset : Word)
  /-- Loads from a register plus an offset. -/
  | load (width : AccessWidth) (signed : Bool) (rd rs1 : Register) (offset : Word)
  /-- Stores `rs2` at `rs1` plus an offset. -/
  | store (width : AccessWidth) (rs1 rs2 : Register) (offset : Word)
  /-- Arithmetic on a register and an immediate; `word` marks a W-suffix form. -/
  | opImm (op : AluOp) (word : Bool) (rd rs1 : Register) (imm : Word)
  /-- Arithmetic on two registers; `word` marks a W-suffix form. -/
  | op (op : AluOp) (word : Bool) (rd rs1 rs2 : Register)
  | fence
  | ecall
  | ebreak
  deriving DecidableEq, Repr, Inhabited

namespace Instruction

def ecallWord : BitVec 32 := 0x00000073

def ebreakWord : BitVec 32 := 0x00100073

/-- The class under which an instruction is counted. -/
def category : Instruction → InstructionClass
  | lui .. | auipc .. | opImm .. | op .. => .alu
  | jal .. | jalr .. => .jump
  | branch .. => .branch
  | load .. => .load
  | store .. => .store
  | fence | ecall | ebreak => .system

def branchCondition? (funct3 : BitVec 3) : Option BranchCondition :=
  match funct3.toNat with
  | 0b000 => some .eq
  | 0b001 => some .ne
  | 0b100 => some .lt
  | 0b101 => some .ge
  | 0b110 => some .ltu
  | 0b111 => some .geu
  | _ => none

/-- The size of a load and whether it sign-extends. -/
def loadKind? (x : Xlen) (funct3 : BitVec 3) : Option (AccessWidth × Bool) :=
  match funct3.toNat, x with
  | 0b000, _ => some (.byte, true)
  | 0b001, _ => some (.half, true)
  | 0b010, _ => some (.word, true)
  | 0b100, _ => some (.byte, false)
  | 0b101, _ => some (.half, false)
  | 0b011, .rv64 => some (.double, true)
  | 0b110, .rv64 => some (.word, false)
  | _, _ => none

def storeWidth? (x : Xlen) (funct3 : BitVec 3) : Option AccessWidth :=
  match funct3.toNat, x with
  | 0b000, _ => some .byte
  | 0b001, _ => some .half
  | 0b010, _ => some .word
  | 0b011, .rv64 => some .double
  | _, _ => none

/-- The shift that the top bits of an immediate shift word select.  A 5-bit
amount leaves seven bits for the choice and a 6-bit amount six; of them only the
second highest may be set, and it stands for an arithmetic right shift. -/
def shift? (wide : Bool) (right : Bool) (funct7 : BitVec 7) : Option AluOp :=
  let selector := if wide then funct7 &&& 0b1111110 else funct7
  if selector = 0 then some (if right then .srl else .sll)
  else if selector = 0b0100000 ∧ right then some .sra
  else none

/-- The operation of a register-immediate word; the W-suffix forms are addition
and the shifts. -/
def immediateOp? (x : Xlen) (word : Bool) (funct3 : BitVec 3) (funct7 : BitVec 7) :
    Option AluOp :=
  let wide : Bool := x = .rv64 ∧ ¬ word
  match funct3.toNat, word with
  | 0b000, _ => some .add
  | 0b001, _ => shift? wide false funct7
  | 0b101, _ => shift? wide true funct7
  | 0b010, false => some .slt
  | 0b011, false => some .sltu
  | 0b100, false => some .xor
  | 0b110, false => some .or
  | 0b111, false => some .and
  | _, _ => none

/-- The operation of a multiply or divide word; the W-suffix forms have no high
halves. -/
def multiplyOp? (word : Bool) (funct3 : BitVec 3) : Option AluOp :=
  match funct3.toNat, word with
  | 0b000, _ => some .mul
  | 0b001, false => some .mulh
  | 0b010, false => some .mulhsu
  | 0b011, false => some .mulhu
  | 0b100, _ => some .div
  | 0b101, _ => some .divu
  | 0b110, _ => some .rem
  | 0b111, _ => some .remu
  | _, _ => none

/-- The operation of a register-register word. -/
def registerOp? (word : Bool) (funct3 : BitVec 3) (funct7 : BitVec 7) : Option AluOp :=
  match funct7.toNat, funct3.toNat, word with
  | 0b0000001, _, _ => multiplyOp? word funct3
  | 0b0000000, 0b000, _ => some .add
  | 0b0100000, 0b000, _ => some .sub
  | 0b0000000, 0b001, _ => some .sll
  | 0b0000000, 0b101, _ => some .srl
  | 0b0100000, 0b101, _ => some .sra
  | 0b0000000, 0b010, false => some .slt
  | 0b0000000, 0b011, false => some .sltu
  | 0b0000000, 0b100, false => some .xor
  | 0b0000000, 0b110, false => some .or
  | 0b0000000, 0b111, false => some .and
  | _, _, _ => none

/-- The instruction that a word encodes on a machine of width `x`, if any. -/
def ofWord? (x : Xlen) (w : BitVec 32) : Option Instruction := do
  let f := Fields.ofWord w
  match ← Opcode.ofBits? f.opcode with
  | .lui => some (.lui f.rd f.imm)
  | .auipc => some (.auipc f.rd f.imm)
  | .jal => some (.jal f.rd f.imm)
  | .jalr => if f.funct3 = 0 then some (.jalr f.rd f.rs1 f.imm) else none
  | .branch => (branchCondition? f.funct3).map (.branch · f.rs1 f.rs2 f.imm)
  | .load => (loadKind? x f.funct3).map fun (width, signed) => .load width signed f.rd f.rs1 f.imm
  | .store => (storeWidth? x f.funct3).map (.store · f.rs1 f.rs2 f.imm)
  | .opImm => (immediateOp? x false f.funct3 f.funct7).map (.opImm · false f.rd f.rs1 f.imm)
  | .opImm32 =>
    if x = .rv64 then
      (immediateOp? x true f.funct3 f.funct7).map (.opImm · true f.rd f.rs1 f.imm)
    else none
  | .op => (registerOp? false f.funct3 f.funct7).map (.op · false f.rd f.rs1 f.rs2)
  | .op32 =>
    if x = .rv64 then (registerOp? true f.funct3 f.funct7).map (.op · true f.rd f.rs1 f.rs2)
    else none
  | .miscMem => if f.funct3 = 0 ∨ f.funct3 = 1 then some .fence else none
  | .system =>
    if w = ecallWord then some .ecall
    else if w = ebreakWord then some .ebreak
    else none

end Instruction

end Hart
