/-
Executing one instruction.

* `StepM.execute` — the effect of an instruction and the address of the next one;
* `Machine.step` — one step of a machine: fetch, decode, execute, retire.

Design notes: a refused load or store leaves everything as it was, so that the
run can go on once the caller has dealt with it; every other error halts the
machine.  An instruction counts only when it retires, but a branch is counted as
taken as soon as its condition holds.
-/
import Hart.Machine.Basic
import Hart.Machine.Service

namespace Hart

/-- Computations on a machine; a failed one keeps its partial effects. -/
abbrev StepM (x : Xlen) := EStateM RunError (Machine x)

namespace StepM

variable {x : Xlen} {α : Type}

def onGuest (f : GuestM x α) : StepM x α := fun m =>
  match f m.toGuest with
  | .ok v p => .ok v { m with toGuest := p }
  | .error e p => .error e { m with toGuest := p }

def halt (code : Int) : StepM x Unit :=
  modify fun m => { m with state := .halted, exitCode := some code }

def writeRegister (r : Register) (v : Word) : StepM x Unit :=
  modify fun m => m.writeRegister r v

def readRegister (r : Register) : StepM x Word := do
  return (← get).registers.read r

/-- Refuses a target of a jump or branch that holds no instruction. -/
def checkTarget (pc target : Word) : StepM x Unit :=
  if target.toNat % instructionSize = 0 then pure ()
  else throw (.targetMisaligned pc.toNat target.toNat)

/-- Jumps to a target with the return address in `rd`. -/
def jump (pc : Word) (rd : Register) (target : Word) : StepM x Word := do
  checkTarget pc target
  writeRegister rd (x.mask (pc + 4))
  return target

/-- The result of the arithmetic unit, on 32 bits for a W-suffix form and on a
32-bit machine. -/
def arithmetic (x : Xlen) (op : AluOp) (word : Bool) (a b : Word) : Word :=
  op.execute (word || x = .rv32) a b

/-- The value of a register after a load of `bytes` bytes. -/
def loaded (bytes : Nat) (signed : Bool) (raw : Nat) : Word :=
  if signed then (BitVec.ofNat (8 * bytes) raw).signExtend 64 else BitVec.ofNat 64 raw

/-- Carries out the instruction at `pc` and answers with the address of the next
one. -/
def execute (pc : Word) (i : Instruction) : StepM x Word := do
  let next := x.mask (pc + 4)
  match i with
  | .lui rd imm =>
    writeRegister rd (arithmetic x .add false 0 imm)
    return next
  | .auipc rd imm =>
    writeRegister rd (arithmetic x .add false pc imm)
    return next
  | .jal rd offset => jump pc rd (x.mask (pc + offset))
  | .jalr rd rs1 offset =>
    let base ← readRegister rs1
    jump pc rd (x.mask (base + offset) &&& ~~~1#64)
  | .branch condition rs1 rs2 offset =>
    if condition.holds x (← readRegister rs1) (← readRegister rs2) then
      onGuest (GuestM.count fun s => { s with branchesTaken := s.branchesTaken + 1 })
      let target := x.mask (pc + offset)
      checkTarget pc target
      return target
    else return next
  | .load width signed rd rs1 offset =>
    let address := x.mask ((← readRegister rs1) + offset)
    match (← get).memory.load address.toNat width.bytes with
    | .ok raw =>
      writeRegister rd (loaded width.bytes signed raw)
      return next
    | .error e => throw (.memory e)
  | .store width rs1 rs2 offset =>
    let address := x.mask ((← readRegister rs1) + offset)
    let value ← readRegister rs2
    match (← get).memory.store address.toNat width.bytes value.toNat with
    | .ok memory =>
      modify fun m => m.modifyMemory fun _ => memory
      return next
    | .error e => throw (.memory e)
  | .opImm op word rd rs1 imm =>
    writeRegister rd (arithmetic x op word (← readRegister rs1) imm)
    return next
  | .op op word rd rs1 rs2 =>
    writeRegister rd (arithmetic x op word (← readRegister rs1) (← readRegister rs2))
    return next
  | .fence => return next
  | .ebreak => return next
  | .ecall =>
    match ← onGuest (Service.call pc) with
    | .resume => return next
    | .exit code =>
      halt code
      return next

/-- A failure halts the machine unless it is that of a load or store. -/
def settle (f : StepM x α) : StepM x α := fun m =>
  match f m with
  | .ok v m => .ok v m
  | .error (.memory e) m => .error (.memory e) m
  | .error e m => .error e { m with state := .halted }

/-- Counts an executed instruction and goes on to the next one, unless the
program has ended. -/
def retire (i : Instruction) (next : Word) : StepM x Unit := do
  onGuest (GuestM.count fun s => s.record i.category)
  if (← get).state ≠ .halted then
    modify fun m => { m with pc := next }
    if ¬ (← get).InText next then halt 0

/-- Executes the instruction at the program counter.  Outside text the program
has ended. -/
def advance : StepM x Unit := do
  let m ← get
  let pc := m.pc
  if ¬ m.InText pc then halt 0
  else
    match m.setup.config.general.maxSteps.filter (· ≤ m.statistics.cycles) with
    | some limit => settle (throw (.stepLimit limit pc.toNat))
    | none =>
      match m.memory.load pc.toNat instructionSize with
      | .error e => throw (.memory e)
      | .ok raw =>
        let word := BitVec.ofNat 32 raw
        match Instruction.ofWord? x word with
        | none => settle (throw (.illegalInstruction pc.toNat word))
        | some i =>
          let next ← settle (execute pc i)
          retire i next

end StepM

/-- Executes one instruction, whatever the breakpoints, and answers with the
state after it.  A halted machine stays as it is. -/
def Machine.step {x : Xlen} : StepM x RunState := do
  let m ← get
  if m.state = .halted then return .halted
  else
    set { m with state := .running }
    StepM.advance
    return (← get).state

end Hart
