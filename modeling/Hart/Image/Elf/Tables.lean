/-
The tables of an ELF file.

The loader uses the section headers only, but it takes no file in which some other
table is unsound.

* `Elf.checkPrograms?` — the program headers;
* `Elf.sectionTable?` — the section headers, with the names of the sections;
* `Elf.checkSymbols?` — a symbol table, with its names;
* `Elf.RelocationsOk` — which section each set of relocations is for;
* `Elf.sections?` — the section headers of a file in which all of these are sound.

Design notes: a table must lie in the file at an offset aligned for its entries.
Counts that do not fit in the header stand in section header 0.  Names are never
looked up, so of a section of names only the end is computed, and the bytes may lie
outside the file.  Relocations are never applied either, and only their section
headers are looked at.
-/
import Hart.Xlen
import Hart.Image.Elf.Header

namespace Hart.Elf

/-- A table of `count` entries of `size` bytes lies in the file, aligned. -/
def TableOk (f : File) (offset count size : Nat) : Prop :=
  offset + count * size ≤ f.bytes.size ∧ offset % f.fileClass.addressBytes = 0

instance (f : File) (offset count size : Nat) : Decidable (TableOk f offset count size) :=
  inferInstanceAs (Decidable (_ ∧ _))

/-- The contents of a section lie in the file and are whole entries of `size` bytes,
aligned to `align` bytes. -/
def EntriesOk (f : File) (s : SectionHeader) (size align : Nat) : Prop :=
  s.offset + s.size ≤ f.bytes.size ∧ s.size % size = 0 ∧ s.offset % align = 0

instance (f : File) (s : SectionHeader) (size align : Nat) : Decidable (EntriesOk f s size align) :=
  inferInstanceAs (Decidable (_ ∧ _))

/-- The offset just past the contents of a section is a 64-bit number. -/
def SectionHeader.EndOk (s : SectionHeader) : Prop :=
  s.offset + s.size < wordLimit

instance (s : SectionHeader) : Decidable s.EndOk :=
  inferInstanceAs (Decidable (_ < _))

/-! ### Headers -/

/-- Section header 0, which holds the counts that do not fit in the file header. -/
def sectionZero? (f : File) (h : Header) : Option SectionHeader := do
  guard (h.sectionOffset ≠ 0)
  guard (h.sectionSize = f.fileClass.sectionHeaderBytes)
  guard (TableOk f h.sectionOffset 1 h.sectionSize)
  SectionHeader.parse? f h.sectionOffset

/-- The program headers are absent, or lie in the file as they should. -/
def checkPrograms? (f : File) (h : Header) : Option Unit := do
  if h.programOffset = 0 then return
  let count ←
    if h.programCount < 0xFFFF then some h.programCount
    else (sectionZero? f h).map (·.info)
  if count = 0 then return
  guard (h.programSize = f.fileClass.programHeaderBytes)
  guard (TableOk f h.programOffset count h.programSize)

/-- The section headers; nothing if the table or the section with their names is
unsound. -/
def sectionTable? (f : File) (h : Header) : Option (List SectionHeader) := do
  if h.sectionOffset = 0 then return []
  let count ← if h.sectionCount ≠ 0 then some h.sectionCount else (sectionZero? f h).map (·.size)
  if count = 0 then return []
  guard (h.sectionSize = f.fileClass.sectionHeaderBytes)
  guard (TableOk f h.sectionOffset count h.sectionSize)
  let headers ← (List.range count).mapM fun k =>
    SectionHeader.parse? f (h.sectionOffset + k * h.sectionSize)
  let namesIndex ←
    if h.namesIndex ≠ 0xFFFF then some h.namesIndex else (sectionZero? f h).map (·.link)
  guard (namesIndex ≠ 0)
  let names ← headers[namesIndex]?
  guard (names.kind = .zeroFilled ∨ names.EndOk)
  return headers

/-! ### Symbols and relocations -/

/-- The index of the first symbol table of a kind. -/
def symbolTable? (headers : List SectionHeader) (kind : SectionKind) : Option Nat :=
  headers.findIdx? (·.kind = kind)

/-- The names of symbols are absent, or the section with this index holds them. -/
def checkNames? (headers : List SectionHeader) (index : Nat) : Option Unit := do
  if index = 0 then return
  let names ← headers[index]?
  guard (names.kind = .strings ∧ names.EndOk)

/-- The first symbol table of a kind is absent, or sound together with its names and
with every list of symbol sections that is meant for it. -/
def checkSymbols? (f : File) (headers : List SectionHeader) (kind : SectionKind) :
    Option Unit := do
  let some index := symbolTable? headers kind | return
  let table ← headers[index]?
  guard (EntriesOk f table f.fileClass.symbolBytes f.fileClass.addressBytes)
  checkNames? headers table.link
  guard (∀ s ∈ headers, s.kind = .symbolSections → s.link = index → EntriesOk f s 4 4)

/-- Relocations that link to the program's symbols and name a section to correct name
one that exists and does not itself hold relocations.  In a file without symbols this
is asked of the relocations that link to section 0. -/
def RelocationsOk (headers : List SectionHeader) : Prop :=
  ∀ s ∈ headers, s.kind = .relocations →
    s.link = (symbolTable? headers .symbols).getD 0 → s.info ≠ 0 →
      (headers[s.info]?).any (·.kind ≠ .relocations)

instance (headers : List SectionHeader) : Decidable (RelocationsOk headers) :=
  inferInstanceAs (Decidable (∀ s ∈ headers, _))

/-- The section headers of a file whose tables are all sound. -/
def sections? (f : File) (h : Header) : Option (List SectionHeader) := do
  checkPrograms? f h
  let headers ← sectionTable? f h
  checkSymbols? f headers .symbols
  checkSymbols? f headers .dynamicSymbols
  guard (RelocationsOk headers)
  return headers

end Hart.Elf
