/-
Sections laid out by address.

* `Section.flatten` — places sections into one buffer, each at its address minus
  the lowest one, with zeros in between;
* `Program.ofSections?` — the program of the sections of text and of data.

Design notes: empty sections count for nothing.  The others are placed in the
order of their addresses, and a later one wins where two overlap.  A buffer may
span at most 4 GiB.
-/
import Hart.Image.Flat
import Hart.Xlen

namespace Hart

/-- A section: the address it was linked for and its bytes. -/
structure Section where
  address : Nat
  bytes : List UInt8
  deriving DecidableEq, Repr

namespace Section

def stop (s : Section) : Nat := s.address + s.bytes.length

/-- The largest span of the sections of one segment. -/
def maxSpan : Nat := 4294967296

/-- Writes `bytes` at an offset of a buffer, which grows with zeros as needed. -/
def place (buffer : List UInt8) (offset : Nat) (bytes : List UInt8) : List UInt8 :=
  buffer.take offset ++ List.replicate (offset - buffer.length) 0 ++ bytes
    ++ buffer.drop (offset + bytes.length)

/-- The non-empty sections in the order of their addresses. -/
def arranged (sections : List Section) : List Section :=
  (sections.filter fun s => !s.bytes.isEmpty).mergeSort fun s t => s.address ≤ t.address

/-- The lowest address of the non-empty sections and one buffer for all of them;
zero and nothing when there are none. -/
def flatten (sections : List Section) : Except ImageError (Nat × List UInt8) :=
  match arranged sections with
  | [] => .ok (0, [])
  | first :: rest =>
    let all := first :: rest
    if all.any fun s => maxSpan < s.stop - first.address then .error (.unsupported .spread)
    else
      .ok (first.address,
        all.foldl (fun buffer s => place buffer (s.address - first.address) s.bytes) [])

end Section

/-- The offset of an entry address inside a text of `length` bytes, unless it is
the start of text or lies outside.  Addresses end at the largest 64-bit number, so
a text that reaches past it ends there. -/
def entryOffset? (textStart length entry : Nat) : Option Nat :=
  if textStart < entry ∧ entry < min (textStart + length) (wordLimit - 1) then
    some (entry - textStart)
  else none

/-- The program of sections of text and sections of data at their addresses, with
an entry address. -/
def Program.ofSections? (textSections dataSections : List Section) (entry : Nat) :
    Except ImageError Program := do
  let (textStart, text) ← Section.flatten textSections
  if text.isEmpty then throw .noText
  let (dataStart, data) ← Section.flatten dataSections
  return {
    text := ← textWords text
    data := data
    textAddress := some textStart
    dataAddress := if data.isEmpty then none else some dataStart
    entry := entryOffset? textStart text.length entry }

end Hart
