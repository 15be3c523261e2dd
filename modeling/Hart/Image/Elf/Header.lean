/-
The headers of an ELF file.

The file header says where the tables are.  The section headers say what each part
of the file is for, and some of them refer to others by index.

* `Elf.Header.parse?` — the file header;
* `Elf.SectionKind.ofNumber` — the kinds of section that the loader tells apart;
* `Elf.SectionHeader.parse?` — the section header at an offset.
-/
import Hart.Image.Elf.File

namespace Hart.Elf

def machineRiscv : Nat := 243

/-- The fields of a file header that matter for loading. -/
structure Header where
  machine : Nat
  entry : Nat
  /-- The offset of the program headers, zero for none. -/
  programOffset : Nat
  /-- The offset of the section headers, zero for none. -/
  sectionOffset : Nat
  programSize : Nat
  programCount : Nat
  sectionSize : Nat
  sectionCount : Nat
  /-- The index of the section with the names of sections. -/
  namesIndex : Nat
  deriving Repr

def Header.parse? (f : File) : Option Header := do
  let a := f.fileClass.addressBytes
  -- Three addresses follow the machine and version, then flags and six halfwords.
  let tail := 24 + 3 * a + 4
  return {
    machine := ← f.number? 18 2
    entry := ← f.addressNumber? 24
    programOffset := ← f.addressNumber? (24 + a)
    sectionOffset := ← f.addressNumber? (24 + 2 * a)
    programSize := ← f.number? (tail + 2) 2
    programCount := ← f.number? (tail + 4) 2
    sectionSize := ← f.number? (tail + 6) 2
    sectionCount := ← f.number? (tail + 8) 2
    namesIndex := ← f.number? (tail + 10) 2 }

/-- What a section holds, as far as loading is concerned. -/
inductive SectionKind where
  /-- Code or data of the program. -/
  | program
  /-- The symbols of the program. -/
  | symbols
  /-- The symbols that are left for loading time. -/
  | dynamicSymbols
  /-- The section of each symbol, where the symbol has no room for its index. -/
  | symbolSections
  | strings
  /-- Corrections to another section, with or without their addends. -/
  | relocations
  /-- Zeros, which take no room in the file. -/
  | zeroFilled
  | other
  deriving DecidableEq, Repr

def SectionKind.ofNumber (n : Nat) : SectionKind :=
  match n with
  | 1 => program
  | 2 => symbols
  | 3 => strings
  | 4 => relocations
  | 8 => zeroFilled
  | 9 => relocations
  | 11 => dynamicSymbols
  | 18 => symbolSections
  | _ => other

/-- The fields of a section header that matter for loading. -/
structure SectionHeader where
  kind : SectionKind
  flags : Nat
  /-- The address that the section was linked for. -/
  address : Nat
  offset : Nat
  size : Nat
  /-- The index of a section that this one depends on. -/
  link : Nat
  /-- Further information, for relocations the index of the section they correct. -/
  info : Nat
  deriving Repr

/-- Reads the section header at an offset. -/
def SectionHeader.parse? (f : File) (position : Nat) : Option SectionHeader := do
  let a := f.fileClass.addressBytes
  return {
    kind := .ofNumber (← f.number? (position + 4) 4)
    flags := ← f.addressNumber? (position + 8)
    address := ← f.addressNumber? (position + 8 + a)
    offset := ← f.addressNumber? (position + 8 + 2 * a)
    size := ← f.addressNumber? (position + 8 + 3 * a)
    link := ← f.number? (position + 8 + 4 * a) 4
    info := ← f.number? (position + 12 + 4 * a) 4 }

end Hart.Elf
