/-
Fields of an instruction word.

A 32-bit word is cut into the fixed fields of the base formats.  The major
opcode decides which of the five immediate formats the remaining bits spell,
and the immediate is assembled from pieces of the word and sign-extended to 64 bits:

* `Opcode.ofBits?` — the major opcodes that the machine knows;
* `ImmediateFormat.read` — the immediate of one format;
* `Fields.ofWord` — all fields of a word.

Design notes: cutting never fails.  A field that a format does not use holds
whatever bits stand there, and the immediate of an opcode without one is zero.
-/
import Hart.Register

namespace Hart

/-- The major opcodes, by their names in the instruction set. -/
inductive Opcode where
  | load | miscMem | opImm | auipc | opImm32 | store | op | lui | op32 | branch | jalr | jal
  | system
  deriving DecidableEq, Repr, Inhabited

/-- The five ways to spread an immediate over a word. -/
inductive ImmediateFormat where
  | i | s | b | u | j
  deriving DecidableEq, Repr, Inhabited

namespace Opcode

/-- The seven low bits of the words of an opcode. -/
def bits : Opcode → BitVec 7
  | load => 0b0000011
  | miscMem => 0b0001111
  | opImm => 0b0010011
  | auipc => 0b0010111
  | opImm32 => 0b0011011
  | store => 0b0100011
  | op => 0b0110011
  | lui => 0b0110111
  | op32 => 0b0111011
  | branch => 0b1100011
  | jalr => 0b1100111
  | jal => 0b1101111
  | system => 0b1110011

def all : List Opcode :=
  [load, miscMem, opImm, auipc, opImm32, store, op, lui, op32, branch, jalr, jal, system]

/-- The opcode with these bits, if there is one. -/
def ofBits? (b : BitVec 7) : Option Opcode :=
  all.find? fun o => o.bits == b

theorem ofBits?_bits (o : Opcode) : ofBits? o.bits = some o := by
  cases o <;> rfl

theorem bits_of_ofBits? {b : BitVec 7} {o : Opcode} (h : ofBits? b = some o) : o.bits = b := by
  have hp := List.find?_some h
  exact eq_of_beq hp

/-- The immediate format of an opcode; register-register, fence and system words
carry no immediate. -/
def immediateFormat? : Opcode → Option ImmediateFormat
  | opImm | load | jalr | opImm32 => some .i
  | store => some .s
  | branch => some .b
  | lui | auipc => some .u
  | jal => some .j
  | op | op32 | miscMem | system => none

end Opcode

namespace ImmediateFormat

/-- The number that the low bits of `v` spell with sign: they are shifted to the top, and back. -/
def extend (v : BitVec 32) (bits : Nat) : Word :=
  ((v <<< (32 - bits)).sshiftRight (32 - bits)).signExtend 64

/-- The immediate that a word spells in a format, sign-extended. -/
def read (w : BitVec 32) : ImmediateFormat → Word
  | i => (w.sshiftRight 20).signExtend 64
  | s =>
    let low := (w >>> 7) &&& 0x1F
    let high := (w >>> 25) &&& 0x7F
    extend ((high <<< 5) ||| low) 12
  | b =>
    let bit11 := (w >>> 7) &&& 0x1
    let bits4To1 := (w >>> 8) &&& 0xF
    let bits10To5 := (w >>> 25) &&& 0x3F
    let bit12 := (w >>> 31) &&& 0x1
    extend ((bit12 <<< 12) ||| (bit11 <<< 11) ||| (bits10To5 <<< 5) ||| (bits4To1 <<< 1)) 13
  | u => (w &&& 0xFFFFF000).signExtend 64
  | j =>
    let bits19To12 := (w >>> 12) &&& 0xFF
    let bit11 := (w >>> 20) &&& 0x1
    let bits10To1 := (w >>> 21) &&& 0x3FF
    let bit20 := (w >>> 31) &&& 0x1
    extend ((bit20 <<< 20) ||| (bits19To12 <<< 12) ||| (bit11 <<< 11) ||| (bits10To1 <<< 1)) 21

end ImmediateFormat

structure Fields where
  /-- The major opcode, bits 6 to 0. -/
  opcode : BitVec 7
  /-- The destination register, bits 11 to 7. -/
  rd : Register
  /-- The minor opcode, bits 14 to 12. -/
  funct3 : BitVec 3
  /-- The first source register, bits 19 to 15. -/
  rs1 : Register
  /-- The second source register, bits 24 to 20. -/
  rs2 : Register
  /-- The function code of register-register words, bits 31 to 25. -/
  funct7 : BitVec 7
  /-- The sign-extended immediate, zero for an opcode without one. -/
  imm : Word
  deriving DecidableEq, Repr, Inhabited

def Fields.ofWord (w : BitVec 32) : Fields where
  opcode := w.extractLsb' 0 7
  rd := w.extractLsb' 7 5
  funct3 := w.extractLsb' 12 3
  rs1 := w.extractLsb' 15 5
  rs2 := w.extractLsb' 20 5
  funct7 := w.extractLsb' 25 7
  imm :=
    match (Opcode.ofBits? (w.extractLsb' 0 7)).bind Opcode.immediateFormat? with
    | some format => format.read w
    | none => 0

end Hart
