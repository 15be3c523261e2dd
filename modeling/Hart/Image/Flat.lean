/-
Flat images.

A flat image is nothing but text: instruction words in a row.

* `wordsOfBytes?` — bytes as words, if they are whole words;
* `Program.ofFlat?` — the program of a flat image.
-/
import Hart.Program

namespace Hart

/-- Why an image is not a 32-bit little-endian program that can run. -/
inductive UnsupportedImage where
  | architecture
  | bigEndian
  /-- Its text or its data lies too far apart. -/
  | spread
  deriving DecidableEq, Repr

/-- Why an image could not be loaded. -/
inductive ImageError where
  | unreadable
  | malformed
  /-- The container is sound, but not of a kind that can run. -/
  | unsupported (reason : UnsupportedImage)
  /-- Text is not a whole number of words. -/
  | misalignedText (length : Nat)
  | noText
  deriving DecidableEq, Repr

def UnsupportedImage.message : UnsupportedImage → String
  | architecture => "not a RISC-V image"
  | bigEndian => "big-endian image"
  | spread => "sections spread over too large a range"

def ImageError.message : ImageError → String
  | unreadable => "could not read image"
  | malformed => "malformed ELF image"
  | unsupported reason => "unsupported ELF image: " ++ reason.message
  | misalignedText length =>
    "text segment of " ++ toString length ++ " bytes is not a whole number of instructions"
  | noText => "image has no text segment"

/-- The words that a sequence of bytes spells, if it is a sequence of words. -/
def wordsOfBytes? : List UInt8 → Option (List (BitVec 32))
  | [] => some []
  | b₀ :: b₁ :: b₂ :: b₃ :: rest =>
    (wordsOfBytes? rest).map (BitVec.ofNat 32 (littleEndian [b₀, b₁, b₂, b₃]) :: ·)
  | _ => none

def textWords (bytes : List UInt8) : Except ImageError (List (BitVec 32)) :=
  match wordsOfBytes? bytes with
  | some ws => .ok ws
  | none => .error (.misalignedText bytes.length)

/-- The program of a flat image. -/
def Program.ofFlat? (bytes : List UInt8) : Except ImageError Program := do
  if bytes.isEmpty then throw .noText
  return { text := ← textWords bytes }

end Hart
