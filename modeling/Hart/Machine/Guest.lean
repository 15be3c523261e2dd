/-
The guest: what a running program can touch.

A guest is the registers of a program, its arena and the counters of its run.
It is what instructions and environment calls change, as opposed to the machine
around it, which decides what runs next.

* `RunError` — why an instruction or a call failed;
* `Signals.ofWord` — the control signals of the word at an address, or why there are none;
* `GuestM.request` — an allocator request made by a guest.
-/
import Hart.Heap.Resize
import Hart.Instruction.Signals
import Hart.Statistics.Basic

namespace Hart

/-- Why a step failed. -/
inductive RunError where
  | memory (e : MemoryError)
  | heap (e : HeapError)
  /-- The word at `pc` is no instruction of this machine. -/
  | illegalInstruction (pc : Nat) (word : BitVec 32)
  /-- The jump or branch at `pc` leads to an address that holds no instruction. -/
  | targetMisaligned (pc target : Nat)
  /-- The environment call at `pc` asks for a service that does not exist. -/
  | unknownCall (pc service : Nat)
  /-- The run has executed as many instructions as it may. -/
  | stepLimit (limit pc : Nat)
  deriving DecidableEq, Repr

def RunError.message : RunError → String
  | memory e => e.message
  | heap e => e.message
  | illegalInstruction pc word =>
    "illegal instruction " ++ Text.hexPadded 8 word.toNat ++ " at pc " ++ Text.hex pc
  | targetMisaligned pc target =>
    "instruction address misaligned: " ++ Text.hex target ++ " (from pc " ++ Text.hex pc ++ ")"
  | unknownCall pc service =>
    "unknown environment call " ++ toString service ++ " at pc " ++ Text.hex pc
  | stepLimit limit pc =>
    "step limit of " ++ toString limit ++ " exceeded at pc " ++ Text.hex pc

/-- The control signals of the word at `pc` on a machine of width `x`.  A word that is no
instruction of the machine is refused with that address. -/
def Signals.ofWord (x : Xlen) (pc : Nat) (w : BitVec 32) : Except RunError Signals :=
  match Instruction.ofWord? x w with
  | some i => .ok i.signals
  | none => .error (.illegalInstruction pc w)

/-- The state that instructions and environment calls work on. -/
structure Guest (x : Xlen) where
  registers : RegisterFile x
  /-- Memory and the heap in it. -/
  arena : Arena x
  /-- What was counted so far. -/
  statistics : Statistics := {}
  deriving Inhabited

/-- Computations on a guest; a failed one keeps its partial effects. -/
abbrev GuestM (x : Xlen) := EStateM RunError (Guest x)

namespace GuestM

variable {x : Xlen} {α : Type}

/-- Makes an allocator request. -/
def request (r : AllocM x α) : GuestM x α := fun p =>
  match r p.arena with
  | .ok v a => .ok v { p with arena := a }
  | .error e a => .error (.heap e) { p with arena := a }

/-- The number in a register. -/
def argument (r : Register) : GuestM x Nat := do
  return ((← get).registers.read r).toNat

def writeRegister (r : Register) (v : Word) : GuestM x Unit :=
  modify fun p => { p with registers := p.registers.write r v }

def count (f : Statistics → Statistics) : GuestM x Unit :=
  modify fun p => { p with statistics := f p.statistics }

end GuestM

end Hart
