/-
Counters of a run.

`Statistics` counts retired instructions, in total and by class, the taken
branches among them, and the requests to the allocator.  Each instruction takes
one cycle:

* `record_cycles` — counting an instruction adds one cycle;
* `record_classes` — and one to the sum of the classes.
-/
import Hart.Instruction.Basic

namespace Hart

/-- What was counted in a run. -/
structure Statistics where
  /-- Retired instructions, one cycle each. -/
  cycles : Nat := 0
  alu : Nat := 0
  load : Nat := 0
  store : Nat := 0
  branch : Nat := 0
  /-- Conditional branches whose condition held. -/
  branchesTaken : Nat := 0
  jump : Nat := 0
  /-- Environment instructions and fences. -/
  system : Nat := 0
  malloc : Nat := 0
  calloc : Nat := 0
  realloc : Nat := 0
  free : Nat := 0
  /-- Requests for some bytes that were answered with null. -/
  failed : Nat := 0
  /-- The largest number of live allocations. -/
  peakActive : Nat := 0
  deriving DecidableEq, Repr, Inhabited

namespace Statistics

/-- The number of instructions counted under any class. -/
def classes (s : Statistics) : Nat :=
  s.alu + s.load + s.store + s.branch + s.jump + s.system

def record (s : Statistics) (c : InstructionClass) : Statistics :=
  let s := { s with cycles := s.cycles + 1 }
  match c with
  | .alu => { s with alu := s.alu + 1 }
  | .load => { s with load := s.load + 1 }
  | .store => { s with store := s.store + 1 }
  | .branch => { s with branch := s.branch + 1 }
  | .jump => { s with jump := s.jump + 1 }
  | .system => { s with system := s.system + 1 }

/-- Notes a number of live allocations. -/
def observeActive (s : Statistics) (active : Nat) : Statistics :=
  { s with peakActive := max s.peakActive active }

theorem record_cycles (s : Statistics) (c : InstructionClass) :
    (s.record c).cycles = s.cycles + 1 := by
  cases c <;> rfl

theorem record_classes (s : Statistics) (c : InstructionClass) :
    (s.record c).classes = s.classes + 1 := by
  cases c <;> simp [record, classes] <;> omega

end Statistics

end Hart
