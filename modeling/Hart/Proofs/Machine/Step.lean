/-
What a step does, as equations.

The instructions that can fail, or that test something, are unfolded once here:

* `StepM.execute_load`, `StepM.execute_store`, `StepM.execute_branch`, `StepM.jump_eq`;
* `StepM.retire_eq` — retiring is the plain function `Machine.retired`;
* `Machine.advance_of_inText` — a running machine in text, guard by guard;
* `step_of_outside`, `step_of_spent`, `step_of_unread`, `step_of_illegal` — a step that
  comes to no instruction;
* `step_eq` — a step of a machine in front of an instruction;
* `Machine.outlook` — there is no other case.
-/
import Hart.Machine.Step

namespace Hart

variable {x : Xlen}

namespace StepM

variable {α β : Type}

/-! The steps of a computation that cannot fail, followed by the rest. -/

theorem get_bind (g : Machine x → StepM x β) (m : Machine x) : (get >>= g) m = g m m :=
  rfl

theorem set_bind (m' : Machine x) (g : PUnit → StepM x β) (m : Machine x) :
    (set m' >>= g) m = g ⟨⟩ m' :=
  rfl

theorem readRegister_bind (r : Register) (g : Word → StepM x β) (m : Machine x) :
    (readRegister r >>= g) m = g (m.registers.read r) m :=
  rfl

theorem count_bind (f : Statistics → Statistics) (g : Unit → StepM x β) (m : Machine x) :
    (onGuest (GuestM.count f) >>= g) m = g () { m with statistics := f m.statistics } :=
  rfl

theorem bind_of_ok {f : StepM x α} {m m' : Machine x} {v : α} (h : f m = .ok v m')
    (g : α → StepM x β) : (f >>= g) m = g v m' := by
  show EStateM.bind f g m = g v m'
  rw [EStateM.bind, h]

theorem bind_of_error {f : StepM x α} {m m' : Machine x} {e : RunError} (h : f m = .error e m')
    (g : α → StepM x β) : (f >>= g) m = .error e m' := by
  show EStateM.bind f g m = .error e m'
  rw [EStateM.bind, h]

theorem jump_eq (m : Machine x) (pc : Word) (rd : Register) (target : Word) :
    jump pc rd target m =
      if target.toNat % instructionSize = 0 then
        .ok target (m.writeRegister rd (x.mask (pc + 4)))
      else .error (.targetMisaligned pc.toNat target.toNat) m := by
  rw [jump, checkTarget]
  by_cases h : target.toNat % instructionSize = 0
  · rw [if_pos h, if_pos h]
    rfl
  · rw [if_neg h, if_neg h]
    rfl

theorem execute_branch (m : Machine x) (pc : Word) (condition : BranchCondition)
    (rs1 rs2 : Register) (offset : Word) :
    execute pc (.branch condition rs1 rs2 offset) m =
      if condition.holds x (m.registers.read rs1) (m.registers.read rs2) then
        let target := x.mask (pc + offset)
        let counted : Machine x :=
          { m with statistics := { m.statistics with
              branchesTaken := m.statistics.branchesTaken + 1 } }
        if target.toNat % instructionSize = 0 then .ok target counted
        else .error (.targetMisaligned pc.toNat target.toNat) counted
      else .ok (x.mask (pc + 4)) m := by
  simp only [execute, readRegister_bind, checkTarget]
  by_cases h : condition.holds x (m.registers.read rs1) (m.registers.read rs2)
  · by_cases halign : (x.mask (pc + offset)).toNat % instructionSize = 0
    · simp only [h, halign, if_true]
      rfl
    · simp only [h, halign, if_true, if_false]
      rfl
  · simp only [h]
    rfl

theorem execute_load (m : Machine x) (pc : Word) (width : AccessWidth) (signed : Bool)
    (rd rs1 : Register) (offset : Word) :
    execute pc (.load width signed rd rs1 offset) m =
      match m.memory.load (x.mask (m.registers.read rs1 + offset)).toNat width.bytes with
      | .ok raw => .ok (x.mask (pc + 4)) (m.writeRegister rd (loaded width.bytes signed raw))
      | .error e => .error (.memory e) m := by
  simp only [execute, readRegister_bind, get_bind]
  cases m.memory.load (x.mask (m.registers.read rs1 + offset)).toNat width.bytes <;> rfl

theorem execute_store (m : Machine x) (pc : Word) (width : AccessWidth) (rs1 rs2 : Register)
    (offset : Word) :
    execute pc (.store width rs1 rs2 offset) m =
      match m.memory.store (x.mask (m.registers.read rs1 + offset)).toNat width.bytes
        (m.registers.read rs2).toNat with
      | .ok memory => .ok (x.mask (pc + 4)) (m.modifyMemory fun _ => memory)
      | .error e => .error (.memory e) m := by
  simp only [execute, readRegister_bind, get_bind]
  cases m.memory.store (x.mask (m.registers.read rs1 + offset)).toNat width.bytes
    (m.registers.read rs2).toNat <;> rfl

end StepM

namespace Machine

/-- The machine after an executed instruction has retired. -/
def retired (m : Machine x) (i : Instruction) (next : Word) : Machine x :=
  let counted := { m with statistics := m.statistics.record i.category }
  if m.state = .halted then counted
  else if m.InText next then { counted with pc := next }
  else { counted with pc := next, state := .halted, exitCode := some 0 }

theorem registers_retired (m : Machine x) (i : Instruction) (next : Word) :
    (m.retired i next).registers = m.registers := by
  simp only [retired, apply_ite Machine.toGuest, ite_self]

theorem arena_retired (m : Machine x) (i : Instruction) (next : Word) :
    (m.retired i next).arena = m.arena := by
  simp only [retired, apply_ite Machine.toGuest, ite_self]

theorem setup_retired (m : Machine x) (i : Instruction) (next : Word) :
    (m.retired i next).setup = m.setup := by
  simp only [retired, apply_ite Machine.setup, ite_self]

theorem breakpoints_retired (m : Machine x) (i : Instruction) (next : Word) :
    (m.retired i next).breakpoints = m.breakpoints := by
  simp only [retired, apply_ite Machine.breakpoints, ite_self]

theorem pc_retired {m : Machine x} (i : Instruction) (next : Word) (h : m.state ≠ .halted) :
    (m.retired i next).pc = next := by
  simp only [retired, apply_ite Machine.pc, h, if_false, ite_self]

end Machine

theorem StepM.retire_eq (m : Machine x) (i : Instruction) (next : Word) :
    StepM.retire i next m = .ok () (m.retired i next) := by
  simp only [StepM.retire, count_bind, get_bind]
  by_cases hstate : m.state = .halted
  · simp only [Machine.retired, hstate, ne_eq, not_true_eq_false, if_true, if_false]
    rfl
  · let moved : Machine x :=
      { m with statistics := m.statistics.record i.category, pc := next }
    rw [if_pos hstate, Machine.retired, if_neg hstate]
    show (if ¬ moved.InText next then StepM.halt 0 else pure ()) moved = _
    by_cases htext : m.InText next
    · have hmoved : moved.InText next := htext
      rw [if_neg (not_not_intro hmoved), if_pos htext]
      rfl
    · have hmoved : ¬ moved.InText next := htext
      rw [if_pos hmoved, if_neg htext]
      rfl

namespace Machine

/-- The machine, in another state. -/
def withState (m : Machine x) (s : RunState) : Machine x :=
  { m with state := s }

/-- The machine after an instruction has failed. -/
def failed (m : Machine x) : RunError → Machine x
  | .memory _ => m
  | _ => m.withState .halted

/-- The most instructions that the machine may execute, if it has executed them. -/
def spent? (m : Machine x) : Option Nat :=
  m.setup.config.general.maxSteps.filter (· ≤ m.statistics.cycles)

theorem spent?_eq_none {m : Machine x} : m.spent? = none ↔
    ∀ limit ∈ m.setup.config.general.maxSteps, m.statistics.cycles < limit := by
  rw [spent?, Option.filter_eq_none_iff]
  refine forall₂_congr fun limit _ => ?_
  rw [decide_eq_true_eq, Nat.not_le]

end Machine

theorem StepM.settle_eq {α : Type} (f : StepM x α) (m : Machine x) :
    settle f m = match f m with
      | .ok v n => .ok v n
      | .error e n => .error e (n.failed e) := by
  rw [settle]
  cases f m with
  | ok v n => rfl
  | error e n => cases e <;> rfl

theorem StepM.settle_bind_retire (pc : Word) (i : Instruction) (m : Machine x) :
    (settle (execute pc i) >>= retire i) m =
      match execute pc i m with
      | .ok next n => .ok () (n.retired i next)
      | .error e n => .error e (n.failed e) := by
  have hsettle := settle_eq (execute pc i) m
  cases hrun : execute pc i m with
  | ok next n =>
    rw [hrun] at hsettle
    rw [bind_of_ok hsettle, retire_eq]
  | error e n =>
    rw [hrun] at hsettle
    rw [bind_of_error hsettle]

namespace Machine

variable {m : Machine x} {i : Instruction}

theorem step_of_halted (h : m.state = .halted) : step m = .ok .halted m := by
  simp only [step, StepM.get_bind, h, if_true]
  rfl

/-- A step starts from the running machine. -/
theorem step_of_running (h : m.state ≠ .halted) :
    step m = (StepM.advance >>= fun _ => get >>= fun m' => pure m'.state)
      (m.withState .running) := by
  simp only [step, StepM.get_bind, StepM.set_bind, h, if_false]
  rfl

theorem step_of_advance {n : Machine x} (hlive : m.state ≠ .halted)
    (h : StepM.advance (m.withState .running) = .ok () n) : step m = .ok n.state n := by
  rw [step_of_running hlive, StepM.bind_of_ok h]
  rfl

theorem step_of_advance_error {e : RunError} {n : Machine x} (hlive : m.state ≠ .halted)
    (h : StepM.advance (m.withState .running) = .error e n) : step m = .error e n := by
  rw [step_of_running hlive, StepM.bind_of_error h]

/-- In text a running machine looks at the limit of steps, fetches, decodes and executes. -/
theorem advance_of_inText (htext : m.InText m.pc) :
    StepM.advance (m.withState .running) = match m.spent? with
      | some limit => .error (.stepLimit limit m.pc.toNat) (m.withState .halted)
      | none => match m.memory.load m.pc.toNat instructionSize with
        | .error e => .error (.memory e) (m.withState .running)
        | .ok raw => match Instruction.ofWord? x (BitVec.ofNat 32 raw) with
          | none =>
            .error (.illegalInstruction m.pc.toNat (BitVec.ofNat 32 raw)) (m.withState .halted)
          | some i => match StepM.execute m.pc i (m.withState .running) with
            | .ok next n => .ok () (n.retired i next)
            | .error e n => .error e (n.failed e) := by
  have hrunning : (m.withState .running).InText (m.withState .running).pc := htext
  simp only [StepM.advance, StepM.get_bind, hrunning, not_true_eq_false, if_false]
  show (match m.spent? with
    | some limit => _
    | none => match m.memory.load m.pc.toNat instructionSize with
      | .error e => _
      | .ok raw => _ : StepM x Unit) (m.withState .running) = _
  cases m.spent? with
  | some limit => rfl
  | none =>
    cases m.memory.load m.pc.toNat instructionSize with
    | error e => rfl
    | ok raw =>
      dsimp only
      cases Instruction.ofWord? x (BitVec.ofNat 32 raw) with
      | none => rfl
      | some i => exact StepM.settle_bind_retire m.pc i (m.withState .running)

/-! ### The steps of a machine that has not halted -/

/-- Outside of text a step ends the program. -/
theorem step_of_outside (hlive : m.state ≠ .halted) (hout : ¬ m.InText m.pc) :
    step m = .ok .halted { m with state := .halted, exitCode := some 0 } := by
  have hrunning : ¬ (m.withState .running).InText (m.withState .running).pc := hout
  refine step_of_advance (n := { m with state := .halted, exitCode := some 0 }) hlive ?_
  simp only [StepM.advance, StepM.get_bind, hrunning, not_false_eq_true, if_true]
  rfl

section

variable (hlive : m.state ≠ .halted) (htext : m.InText m.pc)

include hlive htext

/-- A machine that has executed as many instructions as it may stops. -/
theorem step_of_spent {limit : Nat} (hspent : m.spent? = some limit) :
    step m = .error (.stepLimit limit m.pc.toNat) (m.withState .halted) :=
  step_of_advance_error hlive (by rw [advance_of_inText htext, hspent])

theorem step_of_unread {e : MemoryError} (hspent : m.spent? = none)
    (hload : m.memory.load m.pc.toNat instructionSize = .error e) :
    step m = .error (.memory e) (m.withState .running) :=
  step_of_advance_error hlive (by rw [advance_of_inText htext, hspent, hload])

theorem step_of_illegal {raw : Nat} (hspent : m.spent? = none)
    (hload : m.memory.load m.pc.toNat instructionSize = .ok raw)
    (hword : Instruction.ofWord? x (BitVec.ofNat 32 raw) = none) :
    step m = .error (.illegalInstruction m.pc.toNat (BitVec.ofNat 32 raw))
      (m.withState .halted) := by
  refine step_of_advance_error hlive ?_
  rw [advance_of_inText htext, hspent, hload]
  dsimp only
  rw [hword]

end

/-- In front of an instruction, below the limit of steps. -/
structure Faces (m : Machine x) (i : Instruction) : Prop where
  running : m.state ≠ .halted
  text : m.InText m.pc
  limit : ∀ limit ∈ m.setup.config.general.maxSteps, m.statistics.cycles < limit
  fetch : ∃ raw, m.memory.load m.pc.toNat instructionSize = .ok raw ∧
    Instruction.ofWord? x (BitVec.ofNat 32 raw) = some i

theorem faces_iff : m.Faces i ↔ m.state ≠ .halted ∧ m.InText m.pc ∧ m.spent? = none ∧
    ((m.memory.load m.pc.toNat instructionSize).toOption.bind fun raw =>
      Instruction.ofWord? x (BitVec.ofNat 32 raw)) = some i := by
  constructor
  · rintro ⟨hlive, htext, hlimit, raw, hload, hword⟩
    refine ⟨hlive, htext, spent?_eq_none.2 hlimit, ?_⟩
    rw [hload]
    exact hword
  · rintro ⟨hlive, htext, hspent, hfetch⟩
    refine ⟨hlive, htext, spent?_eq_none.1 hspent, ?_⟩
    cases hload : m.memory.load m.pc.toNat instructionSize with
    | error e =>
      rw [hload] at hfetch
      cases hfetch
    | ok raw =>
      rw [hload] at hfetch
      exact ⟨raw, rfl, hfetch⟩

instance (m : Machine x) (i : Instruction) : Decidable (m.Faces i) :=
  decidable_of_iff _ faces_iff.symm

/-- In front of an instruction a step comes down to its execution. -/
theorem step_eq (h : m.Faces i) :
    step m = match StepM.execute m.pc i (m.withState .running) with
      | .ok next n => .ok (n.retired i next).state (n.retired i next)
      | .error e n => .error e (n.failed e) := by
  obtain ⟨raw, hload, hword⟩ := h.fetch
  have hadvance : StepM.advance (m.withState .running) =
      match StepM.execute m.pc i (m.withState .running) with
      | .ok next n => .ok () (n.retired i next)
      | .error e n => .error e (n.failed e) := by
    rw [advance_of_inText h.text, spent?_eq_none.2 h.limit, hload]
    dsimp only
    rw [hword]
  cases hrun : StepM.execute m.pc i (m.withState .running) with
  | ok next n =>
    rw [hrun] at hadvance
    exact step_of_advance h.running hadvance
  | error e n =>
    rw [hrun] at hadvance
    exact step_of_advance_error h.running hadvance

/-- A step that executes an instruction retires it. -/
theorem step_of_executed {next : Word} {n : Machine x} (h : m.Faces i)
    (hrun : StepM.execute m.pc i (m.withState .running) = .ok next n) :
    step m = .ok (n.retired i next).state (n.retired i next) := by
  rw [step_eq h, hrun]

theorem step_of_failed {e : RunError} {n : Machine x} (h : m.Faces i)
    (hrun : StepM.execute m.pc i (m.withState .running) = .error e n) :
    step m = .error e (n.failed e) := by
  rw [step_eq h, hrun]

/-- What a machine has in front of it. -/
inductive Outlook (m : Machine x) : Prop
  | halted (hhalted : m.state = .halted)
  | outside (hlive : m.state ≠ .halted) (hout : ¬ m.InText m.pc)
  | spent {limit : Nat} (hlive : m.state ≠ .halted) (htext : m.InText m.pc)
      (hspent : m.spent? = some limit)
  | unread {e : MemoryError} (hlive : m.state ≠ .halted) (htext : m.InText m.pc)
      (hspent : m.spent? = none) (hload : m.memory.load m.pc.toNat instructionSize = .error e)
  | illegal {raw : Nat} (hlive : m.state ≠ .halted) (htext : m.InText m.pc)
      (hspent : m.spent? = none) (hload : m.memory.load m.pc.toNat instructionSize = .ok raw)
      (hword : Instruction.ofWord? x (BitVec.ofNat 32 raw) = none)
  | instruction {i : Instruction} (hfaces : m.Faces i)

theorem outlook (m : Machine x) : m.Outlook := by
  by_cases hhalted : m.state = .halted
  · exact .halted hhalted
  by_cases hout : ¬ m.InText m.pc
  · exact .outside hhalted hout
  have htext : m.InText m.pc := Decidable.not_not.1 hout
  cases hspent : m.spent? with
  | some limit => exact .spent hhalted htext hspent
  | none =>
    cases hload : m.memory.load m.pc.toNat instructionSize with
    | error e => exact .unread hhalted htext hspent hload
    | ok raw =>
      cases hword : Instruction.ofWord? x (BitVec.ofNat 32 raw) with
      | none => exact .illegal hhalted htext hspent hload hword
      | some i => exact .instruction ⟨hhalted, htext, spent?_eq_none.1 hspent, raw, hload, hword⟩

/-- A step that succeeds has executed the instruction and retired it. -/
theorem exists_execute_of_step {m' : Machine x} {state : RunState} (h : m.Faces i)
    (hstep : step m = .ok state m') :
    ∃ next m₁, StepM.execute m.pc i (m.withState .running) = .ok next m₁ ∧
      m' = m₁.retired i next := by
  cases hrun : StepM.execute m.pc i (m.withState .running) with
  | error e n =>
    rw [step_of_failed h hrun] at hstep
    cases hstep
  | ok next m₁ =>
    rw [step_of_executed h hrun] at hstep
    cases hstep
    exact ⟨next, m₁, rfl, rfl⟩

end Machine

end Hart
