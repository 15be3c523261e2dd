/-
ELF images.

An ELF file is a header, a table of program headers that the loader ignores, and
a table of sections.  Loaded sections with instructions become text, the other
loaded sections with contents become data, and the entry point counts when it is
not simply the start of text.

* `Program.ofElf?` — the program of an ELF image;
* `Program.ofImage?` — the same for a file that may also be a flat image.

Design notes: the whole container is checked before the architecture, so a file
with both faults counts as malformed.  Zero-filled sections are left out, since
memory that was never written reads as zero.
-/
import Hart.Image.Sections
import Hart.Image.Elf.Tables

namespace Hart.Elf

/-- What a section contributes to a program. -/
inductive Role where
  | text | data | ignored
  deriving DecidableEq, Repr

/-- The role of a section.  Only loaded sections with contents count, and
thread-local ones do not. -/
def SectionHeader.role (s : SectionHeader) : Role :=
  let loaded : Bool := s.kind = .program ∧ s.flags.testBit 1
  let executable := s.flags.testBit 2
  let threadLocal := s.flags.testBit 10
  if loaded then
    if executable then .text else if threadLocal then .ignored else .data
  else .ignored

/-- The contents of the sections with a role, which must lie in the file.  Section
header 0 is no section. -/
def contents? (f : File) (headers : List SectionHeader) (role : Role) : Option (List Section) :=
  ((headers.drop 1).filter (·.role = role)).mapM fun s =>
    (f.slice? s.offset s.size).map fun bytes => { address := s.address, bytes }

/-- A part of the container that must be sound. -/
def sound {α : Type} (part : Option α) : Except ImageError α :=
  match part with
  | some v => .ok v
  | none => .error .malformed

end Elf

open Elf in
/-- The program of an ELF image. -/
def Program.ofElf? (bytes : List UInt8) : Except ImageError Program := do
  let file ← sound (File.ofBytes? bytes)
  let header ← sound (Elf.Header.parse? file)
  let headers ← sound (sections? file header)
  if header.machine ≠ machineRiscv then throw (.unsupported .architecture)
  if file.bigEndian then throw (.unsupported .bigEndian)
  let textSections ← sound (contents? file headers .text)
  let dataSections ← sound (contents? file headers .data)
  Program.ofSections? textSections dataSections header.entry

/-- The program of a file: an ELF image if it starts like one, otherwise a flat
image. -/
def Program.ofImage? (bytes : List UInt8) : Except ImageError Program :=
  if bytes.take 4 = Elf.magic then Program.ofElf? bytes else Program.ofFlat? bytes

end Hart
