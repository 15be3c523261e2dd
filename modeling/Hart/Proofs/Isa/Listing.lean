/-
The instructions of RV32IM and RV64IM, as the instruction set lists them.

`Isa.Instr` is an instruction whose operands are as wide as their fields, and
`Isa.Instr.ofWord?` reads one off a word:

* `immI`, `immS`, `immB`, `immU`, `immJ` — the immediates of the formats;
* `branch?`, `load?`, `store?`, `immediate?`, `shift?`, `register?` — the lines of
  the listings under one opcode, by `funct3` and `funct7`.

Design notes: these are the terms in which the machine's own decoder is judged, so
the tables are written out here once more and share with the machine only the names
of operations, conditions and access widths.
-/
import Hart.Instruction.Basic

namespace Hart.Isa

/-- An instruction with its operands, each as wide as its field; `word` marks a
W-suffix form. -/
inductive Instr where
  | lui (rd : Register) (imm : BitVec 20)
  | auipc (rd : Register) (imm : BitVec 20)
  | jal (rd : Register) (offset : BitVec 21)
  | jalr (rd rs1 : Register) (offset : BitVec 12)
  | branch (condition : BranchCondition) (rs1 rs2 : Register) (offset : BitVec 13)
  | load (width : AccessWidth) (signed : Bool) (rd rs1 : Register) (offset : BitVec 12)
  | store (width : AccessWidth) (rs1 rs2 : Register) (offset : BitVec 12)
  | immediate (op : AluOp) (word : Bool) (rd rs1 : Register) (imm : BitVec 12)
  | shift (op : AluOp) (word : Bool) (rd rs1 : Register) (amount : BitVec 6)
  | register (op : AluOp) (word : Bool) (rd rs1 rs2 : Register)
  | fence
  | ecall
  | ebreak
  deriving DecidableEq, Repr

/-! ### Immediates -/

/-- `imm[11:0]`. -/
def immI (w : BitVec 32) : BitVec 12 := w.extractLsb' 20 12

/-- `imm[11:5]` and `imm[4:0]`. -/
def immS (w : BitVec 32) : BitVec 12 := w.extractLsb' 25 7 ++ w.extractLsb' 7 5

/-- `imm[12|10:5]` and `imm[4:1|11]`; branches go to even addresses. -/
def immB (w : BitVec 32) : BitVec 13 :=
  w.extractLsb' 31 1 ++ w.extractLsb' 7 1 ++ w.extractLsb' 25 6 ++ w.extractLsb' 8 4 ++ 0#1

/-- `imm[31:12]`. -/
def immU (w : BitVec 32) : BitVec 20 := w.extractLsb' 12 20

/-- `imm[20|10:1|11|19:12]`; jumps go to even addresses. -/
def immJ (w : BitVec 32) : BitVec 21 :=
  w.extractLsb' 31 1 ++ w.extractLsb' 12 8 ++ w.extractLsb' 20 1 ++ w.extractLsb' 21 10 ++ 0#1

/-! ### Listings -/

/-- `BRANCH`. -/
def branch? : BitVec 3 → Option BranchCondition
  | 0b000 => some .eq
  | 0b001 => some .ne
  | 0b100 => some .lt
  | 0b101 => some .ge
  | 0b110 => some .ltu
  | 0b111 => some .geu
  | _ => none

/-- `LOAD`, with the width and whether the load sign-extends. -/
def load? : Xlen → BitVec 3 → Option (AccessWidth × Bool)
  | _, 0b000 => some (.byte, true)
  | _, 0b001 => some (.half, true)
  | _, 0b010 => some (.word, true)
  | .rv64, 0b011 => some (.double, true)
  | _, 0b100 => some (.byte, false)
  | _, 0b101 => some (.half, false)
  | .rv64, 0b110 => some (.word, false)
  | _, _ => none

/-- `STORE`. -/
def store? : Xlen → BitVec 3 → Option AccessWidth
  | _, 0b000 => some .byte
  | _, 0b001 => some .half
  | _, 0b010 => some .word
  | .rv64, 0b011 => some .double
  | _, _ => none

/-- `OP-IMM` and `OP-IMM-32` without the shifts. -/
def immediate? : Bool → BitVec 3 → Option AluOp
  | _, 0b000 => some .add
  | false, 0b010 => some .slt
  | false, 0b011 => some .sltu
  | false, 0b100 => some .xor
  | false, 0b110 => some .or
  | false, 0b111 => some .and
  | _, _ => none

/-- The shifts of `OP-IMM` and `OP-IMM-32`.  A word of 32 bits is shifted by an
amount of five bits, and bit 25 is then zero. -/
def shift? (narrow : Bool) (funct3 : BitVec 3) (funct7 : BitVec 7) : Option AluOp :=
  if narrow ∧ funct7.getLsbD 0 then none
  else
    match funct7.extractLsb' 1 6, funct3 with
    | 0b000000, 0b001 => some .sll
    | 0b000000, 0b101 => some .srl
    | 0b010000, 0b101 => some .sra
    | _, _ => none

/-- `OP` and `OP-32`. -/
def register? : Bool → BitVec 7 → BitVec 3 → Option AluOp
  | _, 0b0000000, 0b000 => some .add
  | _, 0b0100000, 0b000 => some .sub
  | _, 0b0000000, 0b001 => some .sll
  | false, 0b0000000, 0b010 => some .slt
  | false, 0b0000000, 0b011 => some .sltu
  | false, 0b0000000, 0b100 => some .xor
  | _, 0b0000000, 0b101 => some .srl
  | _, 0b0100000, 0b101 => some .sra
  | false, 0b0000000, 0b110 => some .or
  | false, 0b0000000, 0b111 => some .and
  | _, 0b0000001, 0b000 => some .mul
  | false, 0b0000001, 0b001 => some .mulh
  | false, 0b0000001, 0b010 => some .mulhsu
  | false, 0b0000001, 0b011 => some .mulhu
  | _, 0b0000001, 0b100 => some .div
  | _, 0b0000001, 0b101 => some .divu
  | _, 0b0000001, 0b110 => some .rem
  | _, 0b0000001, 0b111 => some .remu
  | _, _, _ => none

/-- The instruction that a word encodes on a hart of width `x`, if any. -/
def Instr.ofWord? (x : Xlen) (w : BitVec 32) : Option Instr :=
  let rd := w.extractLsb' 7 5
  let funct3 := w.extractLsb' 12 3
  let rs1 := w.extractLsb' 15 5
  let rs2 := w.extractLsb' 20 5
  let funct7 := w.extractLsb' 25 7
  let onRegisters (word : Bool) : Option Instr :=
    (register? word funct7 funct3).map fun op => .register op word rd rs1 rs2
  let onImmediate (word : Bool) : Option Instr :=
    ((immediate? word funct3).map fun op => .immediate op word rd rs1 (immI w)).or
      ((shift? (word || x = .rv32) funct3 funct7).map fun op =>
        .shift op word rd rs1 (w.extractLsb' 20 6))
  match w.extractLsb' 0 7, x with
  | 0b0110111, _ => some (.lui rd (immU w))
  | 0b0010111, _ => some (.auipc rd (immU w))
  | 0b1101111, _ => some (.jal rd (immJ w))
  | 0b1100111, _ => if funct3 = 0 then some (.jalr rd rs1 (immI w)) else none
  | 0b1100011, _ => (branch? funct3).map fun condition => .branch condition rs1 rs2 (immB w)
  | 0b0000011, _ => (load? x funct3).map fun (width, signed) => .load width signed rd rs1 (immI w)
  | 0b0100011, _ => (store? x funct3).map fun width => .store width rs1 rs2 (immS w)
  | 0b0010011, _ => onImmediate false
  | 0b0011011, .rv64 => onImmediate true
  | 0b0110011, _ => onRegisters false
  | 0b0111011, .rv64 => onRegisters true
  | 0b0001111, _ => if funct3 = 0 ∨ funct3 = 1 then some .fence else none
  | 0b1110011, _ =>
    if w = 0x00000073 then some .ecall else if w = 0x00100073 then some .ebreak else none
  | _, _ => none

end Hart.Isa
