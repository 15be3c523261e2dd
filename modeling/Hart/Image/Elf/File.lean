/-
ELF files as containers of numbers.

A file declares in its first bytes how wide its addresses are and which way round
its numbers are written.  Everything that is read from it later goes through these
two choices.

* `Elf.Class` — the two file classes and the sizes that follow from them;
* `Elf.File.ofBytes?` — a file with the class and byte order it declares;
* `Elf.File.slice?`, `Elf.File.number?` — bytes and numbers at an offset.

Design notes: the content is an array, since headers and sections are read at offsets
all over the file.
-/
import Hart.LittleEndian

namespace Hart.Elf

/-- The two file classes, with 4-byte and 8-byte addresses. -/
inductive Class where
  | class32 | class64
  deriving DecidableEq, Repr

namespace Class

/-- The class that byte 4 of a file declares. -/
def ofByte? (b : UInt8) : Option Class :=
  if b = 1 then some class32 else if b = 2 then some class64 else none

/-- The number of bytes of an address. -/
def addressBytes : Class → Nat
  | class32 => 4
  | class64 => 8

def fileHeaderBytes : Class → Nat
  | class32 => 52
  | class64 => 64

def programHeaderBytes : Class → Nat
  | class32 => 32
  | class64 => 56

def sectionHeaderBytes : Class → Nat
  | class32 => 40
  | class64 => 64

def symbolBytes : Class → Nat
  | class32 => 16
  | class64 => 24

end Class

/-- Whether byte 5 of a file declares that numbers are big-endian. -/
def bigEndianOfByte? (b : UInt8) : Option Bool :=
  if b = 1 then some false else if b = 2 then some true else none

/-- A file with the class and byte order that its first bytes declare. -/
structure File where
  fileClass : Class
  /-- Numbers are written most significant byte first. -/
  bigEndian : Bool
  bytes : Array UInt8

/-- The four bytes that every ELF file starts with. -/
def magic : List UInt8 := [0x7F, 0x45, 0x4C, 0x46]

namespace File

/-- The `count` bytes at an offset, if they lie in the file. -/
def slice? (f : File) (offset count : Nat) : Option (List UInt8) :=
  if offset + count ≤ f.bytes.size then some (f.bytes.extract offset (offset + count)).toList
  else none

/-- The number written in `count` bytes at an offset. -/
def number? (f : File) (offset count : Nat) : Option Nat :=
  (f.slice? offset count).map fun bytes =>
    littleEndian (if f.bigEndian then bytes.reverse else bytes)

/-- The number at an offset that is written in as many bytes as an address. -/
def addressNumber? (f : File) (offset : Nat) : Option Nat :=
  f.number? offset f.fileClass.addressBytes

/-- The file with this content, if its identification is that of an ELF file. -/
def ofBytes? (bytes : List UInt8) : Option File := do
  guard (bytes.take 4 = magic)
  let fileClass ← Class.ofByte? (← bytes[4]?)
  let bigEndian ← bigEndianOfByte? (← bytes[5]?)
  guard (bytes[6]? = some 1)
  guard (fileClass.fileHeaderBytes ≤ bytes.length)
  return { fileClass, bigEndian, bytes := bytes.toArray }

end File

end Hart.Elf
