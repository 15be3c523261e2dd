/-
Assembly text of instruction words.

`disassemble` writes a word as a mnemonic and its operands, or as `unknown`.  It
reads the fields on its own, without asking whether a machine would execute the
word: the text is for diagnostics, where a word may well be illegal.

Design notes: the disassembler knows every form of the 64-bit set.  For an
immediate shift it looks only at the bit that tells an arithmetic from a logical
right shift and at the amount, not at the other selector bits.
-/
import Hart.Instruction.Basic

namespace Hart.Disassembly

open Text (hex)

/-- The three operands of an arithmetic word. -/
def operands (a b c : String) : String :=
  a ++ ", " ++ b ++ ", " ++ c

/-- An operand of a load or store: an offset from a register. -/
def offsetOperand (f : Fields) : String :=
  toString f.imm.toInt ++ "(" ++ f.rs1.name ++ ")"

def branchMnemonic? (f : Fields) : Option String :=
  match f.funct3.toNat with
  | 0b000 => some "beq"
  | 0b001 => some "bne"
  | 0b100 => some "blt"
  | 0b101 => some "bge"
  | 0b110 => some "bltu"
  | 0b111 => some "bgeu"
  | _ => none

def loadMnemonic? (f : Fields) : Option String :=
  match f.funct3.toNat with
  | 0b000 => some "lb"
  | 0b001 => some "lh"
  | 0b010 => some "lw"
  | 0b011 => some "ld"
  | 0b100 => some "lbu"
  | 0b101 => some "lhu"
  | 0b110 => some "lwu"
  | _ => none

def storeMnemonic? (f : Fields) : Option String :=
  match f.funct3.toNat with
  | 0b000 => some "sb"
  | 0b001 => some "sh"
  | 0b010 => some "sw"
  | 0b011 => some "sd"
  | _ => none

/-- The suffix of a form that works on 32 bits. -/
def suffix (word : Bool) : String :=
  if word then "w" else ""

/-- The mnemonic of a register-immediate word, without its suffix, and the
number that it shows as its last operand. -/
def immediateMnemonic? (f : Fields) (word : Bool) : Option (String × Int) :=
  let amount : Int := f.imm.toNat % (if word then 32 else 64)
  match f.funct3.toNat, word with
  | 0b000, _ => some ("addi", f.imm.toInt)
  | 0b010, false => some ("slti", f.imm.toInt)
  | 0b011, false => some ("sltiu", f.imm.toInt)
  | 0b100, false => some ("xori", f.imm.toInt)
  | 0b110, false => some ("ori", f.imm.toInt)
  | 0b111, false => some ("andi", f.imm.toInt)
  | 0b001, _ => some ("slli", amount)
  | 0b101, _ => some (if f.funct7.getLsbD 5 then "srai" else "srli", amount)
  | _, _ => none

/-- The mnemonic of a multiply or divide word, without its suffix. -/
def multiplyMnemonic? (f : Fields) (word : Bool) : Option String :=
  match f.funct3.toNat, word with
  | 0b000, _ => some "mul"
  | 0b001, false => some "mulh"
  | 0b010, false => some "mulhsu"
  | 0b011, false => some "mulhu"
  | 0b100, _ => some "div"
  | 0b101, _ => some "divu"
  | 0b110, _ => some "rem"
  | 0b111, _ => some "remu"
  | _, _ => none

/-- The mnemonic of a register-register word, without its suffix. -/
def registerMnemonic? (f : Fields) (word : Bool) : Option String :=
  match f.funct3.toNat, f.funct7.toNat, word with
  | _, 0b0000001, _ => multiplyMnemonic? f word
  | 0b000, 0b0000000, _ => some "add"
  | 0b000, 0b0100000, _ => some "sub"
  | 0b001, 0b0000000, _ => some "sll"
  | 0b010, 0b0000000, false => some "slt"
  | 0b011, 0b0000000, false => some "sltu"
  | 0b100, 0b0000000, false => some "xor"
  | 0b101, 0b0000000, _ => some "srl"
  | 0b101, 0b0100000, _ => some "sra"
  | 0b110, 0b0000000, false => some "or"
  | 0b111, 0b0000000, false => some "and"
  | _, _, _ => none

def immediateText? (f : Fields) (word : Bool) : Option String :=
  (immediateMnemonic? f word).map fun (mnemonic, operand) =>
    mnemonic ++ suffix word ++ " " ++ operands f.rd.name f.rs1.name (toString operand)

def registerText? (f : Fields) (word : Bool) : Option String :=
  (registerMnemonic? f word).map fun mnemonic =>
    mnemonic ++ suffix word ++ " " ++ operands f.rd.name f.rs1.name f.rs2.name

/-- The text of a word that has one. -/
def text? (w : BitVec 32) : Option String := do
  let f := Fields.ofWord w
  let upper := hex (f.imm.extractLsb' 12 20).toNat
  match ← Opcode.ofBits? f.opcode with
  | .lui => some ("lui " ++ f.rd.name ++ ", " ++ upper)
  | .auipc => some ("auipc " ++ f.rd.name ++ ", " ++ upper)
  | .jal => some ("jal " ++ f.rd.name ++ ", " ++ toString f.imm.toInt)
  | .jalr =>
    if f.funct3 = 0 then some ("jalr " ++ f.rd.name ++ ", " ++ offsetOperand f) else none
  | .branch =>
    (branchMnemonic? f).map fun mnemonic =>
      mnemonic ++ " " ++ operands f.rs1.name f.rs2.name (toString f.imm.toInt)
  | .load =>
    (loadMnemonic? f).map fun mnemonic => mnemonic ++ " " ++ f.rd.name ++ ", " ++ offsetOperand f
  | .store =>
    (storeMnemonic? f).map fun mnemonic => mnemonic ++ " " ++ f.rs2.name ++ ", " ++ offsetOperand f
  | .opImm => immediateText? f false
  | .opImm32 => immediateText? f true
  | .op => registerText? f false
  | .op32 => registerText? f true
  | .miscMem =>
    match f.funct3.toNat with
    | 0 => some "fence"
    | 1 => some "fence.i"
    | _ => none
  | .system =>
    if w = Instruction.ecallWord then some "ecall"
    else if w = Instruction.ebreakWord then some "ebreak"
    else none

/-- The assembly text of a word, `unknown` for a word without one. -/
def disassemble (w : BitVec 32) : String :=
  (text? w).getD "unknown"

end Hart.Disassembly
