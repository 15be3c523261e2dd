/-
Program images.

A program is what a run starts from: the words of its text, the initial bytes of
its data, and where they were linked to lie.  Addresses that it leaves open are
those of the configuration.
-/
import Hart.LittleEndian

namespace Hart

abbrev instructionSize : Nat := 4

structure Program where
  /-- The instruction words, in a row from the text address on. -/
  text : List (BitVec 32)
  /-- The initial bytes of the data segment. -/
  data : List UInt8 := []
  /-- The address that text was linked for. -/
  textAddress : Option Nat := none
  /-- The address that data was linked for. -/
  dataAddress : Option Nat := none
  /-- The entry point, as a byte offset into text.  With one, a return from it
  ends the program. -/
  entry : Option Nat := none
  deriving DecidableEq, Repr, Inhabited

namespace Program

def textLength (p : Program) : Nat :=
  p.text.length * instructionSize

def bytesOfWords (ws : List (BitVec 32)) : List UInt8 :=
  ws.flatMap fun w => toBytes instructionSize w.toNat

def textBytes (p : Program) : List UInt8 :=
  bytesOfWords p.text

theorem length_textBytes (p : Program) : p.textBytes.length = p.textLength := by
  simp only [textBytes, bytesOfWords, textLength]
  induction p.text with
  | nil => rfl
  | cons w ws ih => simp [ih, Nat.add_mul, Nat.add_comm]

end Program

end Hart
