/-
The machine.

A machine is a guest under a program counter, with the run state and the
breakpoints.  It is built from a program and a configuration:

* `Machine.boot` — the machine with the program in memory, if the layout fits;
* `Machine.reset` — the same machine as freshly loaded.

Design notes: what a machine was built from never changes in a run and is kept
apart in its `Setup`.  Resetting keeps the breakpoints and the two policies that
may be switched during a run.
-/
import Std.Data.ExtTreeSet
import Hart.Config.Basic
import Hart.Machine.Guest
import Hart.Program

namespace Hart

/-- Where a machine stands. -/
inductive RunState where
  /-- Nothing has been executed yet. -/
  | ready
  | running
  /-- In front of a breakpoint whose instruction has not been executed. -/
  | atBreakpoint
  | halted
  deriving DecidableEq, Repr, Inhabited

/-- What a machine was built from. -/
structure Setup where
  program : Program
  config : Config
  /-- The address of the first instruction of text. -/
  textStart : Nat
  /-- One past the last address of text. -/
  textStop : Nat
  /-- The address of the first byte of data. -/
  dataStart : Nat
  deriving DecidableEq, Repr, Inhabited

namespace Setup

/-- The segments placed where the program or else the configuration wants them. -/
def place (c : Config) (p : Program) : Setup :=
  let textStart := p.textAddress.getD c.memory.textBase
  { program := p
    config := c
    textStart
    textStop := textStart + p.textLength
    dataStart := p.dataAddress.getD c.memory.dataBase }

def dataStop (s : Setup) : Nat := s.dataStart + s.program.data.length

def entryAddress (s : Setup) : Nat := s.textStart + s.program.entry.getD 0

/-- The fault of a segment that reaches into the heap. -/
def heapFault? (s : Setup) (segment : Segment) : Option LayoutFault :=
  let (start, stop) := match segment with
    | .text => (s.textStart, s.textStop)
    | .data => (s.dataStart, s.dataStop)
  let m := s.config.memory
  if start < stop ∧ start < m.heapLimit ∧ m.heapBase < stop then
    some (.segmentInHeap segment start stop m.heapBase m.heapLimit)
  else none

/-- An entry point that is no instruction of text. -/
def EntryOutside (s : Setup) (entry : Nat) : Prop :=
  s.program.textLength ≤ entry ∨ entry % instructionSize ≠ 0

instance (s : Setup) (entry : Nat) : Decidable (s.EntryOutside entry) :=
  inferInstanceAs (Decidable (_ ∨ _))

/-- The first fault of the placement, if there is one. -/
def fault? (s : Setup) : Option LayoutFault :=
  let top := s.config.general.xlen.maxAddress
  if s.textStart % instructionSize ≠ 0 then some (.textMisaligned s.textStart)
  else if top < s.textStop then some (.segmentTooLong .text)
  else if top < s.dataStop then some (.segmentTooLong .data)
  else
    (s.heapFault? .text).or <| (s.heapFault? .data).or <|
      if s.program.entry.any fun e => s.EntryOutside e then some .entryOutside else none

end Setup

/-- A machine of width `x`. -/
structure Machine (x : Xlen) extends Guest x where
  setup : Setup
  /-- The address of the next instruction. -/
  pc : Word
  state : RunState
  /-- The exit code of a program that ended by itself. -/
  exitCode : Option Int
  /-- The addresses in front of which a run to a breakpoint stops. -/
  breakpoints : Std.ExtTreeSet Nat

namespace Machine

variable {x : Xlen}

instance : Inhabited (Machine x) := ⟨⟨default, default, default, .ready, none, ∅⟩⟩

def memory (m : Machine x) : Memory x := m.arena.memory

def heap (m : Machine x) : Heap x := m.arena.heap

def modifyMemory (m : Machine x) (f : Memory x → Memory x) : Machine x :=
  { m with arena := { m.arena with memory := f m.arena.memory } }

def modifyHeap (m : Machine x) (f : Heap x → Heap x) : Machine x :=
  { m with arena := { m.arena with heap := f m.arena.heap } }

/-- The registers of a freshly loaded program. -/
def initialRegisters (s : Setup) : RegisterFile x :=
  let pointers := (RegisterFile.empty.write Register.sp (BitVec.ofNat 64 s.config.memory.stackPointer)).write
    Register.gp (BitVec.ofNat 64 s.config.memory.globalPointer)
  if s.program.entry.isSome then pointers.write Register.ra (BitVec.ofNat 64 s.textStop)
  else pointers

/-- Puts the program into memory, and registers and program counter at the start. -/
def loadImage (m : Machine x) : Machine x :=
  let s := m.setup
  let loaded := m.modifyMemory fun memory =>
    (memory.storeBytes s.textStart s.program.textBytes).storeBytes s.dataStart s.program.data
  { loaded with
    registers := initialRegisters s
    pc := BitVec.ofNat 64 s.entryAddress }

/-- The machine for a program under a configuration. -/
def boot (c : Config) (p : Program) : Except ConfigError (Machine c.general.xlen) := do
  c.check
  let setup := Setup.place c p
  match setup.fault? with
  | some fault => throw (.layout fault)
  | none =>
    let x := c.general.xlen
    let heap := Heap.empty x c.memory.heapBase c.memory.heapLimit c.heap.alwaysCalloc
    let blank : Machine x :=
      { registers := RegisterFile.empty
        arena := ⟨heap, Memory.empty x c.memory.aligned⟩
        setup
        pc := 0
        state := .ready
        exitCode := none
        breakpoints := ∅ }
    return blank.loadImage

/-- The machine as freshly loaded, with its breakpoints and policies kept. -/
def reset (m : Machine x) : Machine x :=
  let cleared := (m.modifyMemory Memory.clear).modifyHeap Heap.reset
  { cleared with statistics := {}, state := .ready, exitCode := none }.loadImage

def InText (m : Machine x) (address : Word) : Prop :=
  m.setup.textStart ≤ address.toNat ∧ address.toNat < m.setup.textStop

instance (m : Machine x) (address : Word) : Decidable (m.InText address) :=
  inferInstanceAs (Decidable (_ ∧ _))

/-- The instruction at the address is a breakpoint, by registration or by its
word. -/
def IsBreakpoint (m : Machine x) (address : Word) : Prop :=
  address.toNat ∈ m.breakpoints ∨
    (m.memory.load address.toNat instructionSize).toOption = some Instruction.ebreakWord.toNat

instance (m : Machine x) (address : Word) : Decidable (m.IsBreakpoint address) :=
  inferInstanceAs (Decidable (_ ∨ _))

/-- Registers a breakpoint, and tells whether it is new. -/
def setBreakpoint (m : Machine x) (address : Nat) : Bool × Machine x :=
  let a := x.wrap address
  (!m.breakpoints.contains a, { m with breakpoints := m.breakpoints.insert a })

/-- Removes a breakpoint, and tells whether there was one. -/
def clearBreakpoint (m : Machine x) (address : Nat) : Bool × Machine x :=
  let a := x.wrap address
  (m.breakpoints.contains a, { m with breakpoints := m.breakpoints.erase a })

def writeRegister (m : Machine x) (r : Register) (v : Word) : Machine x :=
  { m with registers := m.registers.write r v }

end Machine

end Hart
