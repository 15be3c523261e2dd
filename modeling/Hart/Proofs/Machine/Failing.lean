/-
Errors are precise.

A step that fails has executed nothing: program counter, registers, the counts of
instructions, exit code and breakpoints are as they were (`Machine.Spares`).

* `Executed.spares` — this holds of any instruction that fails, and only a refused request
  of an environment call may leave traces in memory and heap;
* `atRest_of_halted` — a halted machine stays as it is, whatever is called;
* `failed_step_precise` — a failed step leaves the machine either in front of the same
  instruction, ready to take the step again, or halted for good.

Design notes: a refused fetch, load or store is the one error that a run survives, and after
it the whole machine is as it was, up to its state.  A step reads that state only to see
whether the machine has halted, so once the caller has put memory and registers right the
machine takes the step that it would have taken.
-/
import Hart.Proofs.Machine.Driving

namespace Hart

variable {x : Xlen} {e : RunError}

namespace Machine

/-- What a failed step leaves as it was. -/
structure Spares (m m' : Machine x) : Prop where
  pc : m'.pc = m.pc
  registers : m'.registers = m.registers
  mix : m.statistics.SameMix m'.statistics
  exitCode : m'.exitCode = m.exitCode
  breakpoints : m'.breakpoints = m.breakpoints
  setup : m'.setup = m.setup

theorem spares_withState (m : Machine x) (s : RunState) : m.Spares (m.withState s) :=
  ⟨rfl, rfl, .refl _, rfl, rfl, rfl⟩

theorem Spares.trans {m m' m'' : Machine x} (h : m.Spares m') (h' : m'.Spares m'') :
    m.Spares m'' :=
  ⟨h'.pc.trans h.pc, h'.registers.trans h.registers, h.mix.trans h'.mix,
    h'.exitCode.trans h.exitCode, h'.breakpoints.trans h.breakpoints, h'.setup.trans h.setup⟩

end Machine

/-- A call that fails has written no register, and memory and heap only by a request that
was refused. -/
theorem Service.Served.spares {pc : Word} {p q : Guest x}
    (h : Service.Served pc p (.error e q)) :
    q.registers = p.registers ∧ ((∀ f, e ≠ .heap f) → q.arena = p.arena) := by
  cases h with
  | unknown number => exact ⟨rfl, fun _ => rfl⟩
  | refused hrun hs => exact ⟨rfl, fun hother => absurd rfl (hother _)⟩

/-- An instruction that fails has written no register, and memory and heap only by a
request that was refused. -/
theorem StepM.Executed.spares {pc : Word} {m n : Machine x} {i : Instruction}
    (h : StepM.Executed pc m i (.error e n)) :
    m.Spares n ∧ ((∀ f, e ≠ .heap f) → n.arena = m.arena) := by
  have hmix := h.sameMix
  cases h with
  | refused | misjumped | misbranched => exact ⟨⟨rfl, rfl, hmix, rfl, rfl, rfl⟩, fun _ => rfl⟩
  | uncalled hserved =>
    obtain ⟨hregisters, harena⟩ := hserved.spares
    exact ⟨⟨rfl, hregisters, hmix, rfl, rfl, rfl⟩, harena⟩

namespace Machine

variable {m m' : Machine x}

theorem Stepped.spares (h : m.Stepped (.error e m')) :
    m.Spares m' ∧ ((∀ f, e ≠ .heap f) → m'.arena = m.arena) := by
  cases h with
  | stopped | refused | illegal => exact ⟨m.spares_withState _, fun _ => rfl⟩
  | @broken i _ n hfaces hexecuted hfatal =>
    obtain ⟨hspares, harena⟩ := hexecuted.spares
    exact ⟨((m.spares_withState _).trans hspares).trans (n.spares_withState _), harena⟩

/-- A failed step leaves the machine running, in front of the same instruction and
otherwise as it was, if a fetch, load or store was refused, and halts it if not. -/
theorem Stepped.fails (h : m.Stepped (.error e m')) :
    m.state ≠ .halted ∧
      ((∃ f, e = .memory f) ∧ m' = m.withState .running ∨
        (∀ f, e ≠ .memory f) ∧ m'.state = .halted) := by
  cases h with
  | stopped hlive htext hspent => exact ⟨hlive, .inr ⟨nofun, rfl⟩⟩
  | refused hlive htext f => exact ⟨hlive, .inl ⟨⟨f, rfl⟩, rfl⟩⟩
  | illegal hlive htext word => exact ⟨hlive, .inr ⟨nofun, rfl⟩⟩
  | broken hfaces hexecuted hfatal => exact ⟨hfaces.running, .inr ⟨hfatal, rfl⟩⟩

/-- Every call answers that the machine has halted, and changes nothing. -/
structure AtRest (m : Machine x) : Prop where
  step_eq : step m = .ok .halted m
  run_eq : ∀ n, run n m = some (.ok .halted m)
  runToBreakpoint_eq : ∀ n, runToBreakpoint n m = some (.ok .halted m)

theorem atRest_of_halted (h : m.state = .halted) : m.AtRest := by
  have hawake : m.state ≠ .atBreakpoint := by
    rw [h]
    exact nofun
  refine ⟨step_of_halted h, fun n => run_of_halted n h, fun n => ?_⟩
  rw [runToBreakpoint_of_unpaused n hawake, runUntilBreakpoint_of_halted n h]

/-- A step that fails leaves program counter, registers, counts of instructions, exit code
and breakpoints as they were, and memory and heap too unless a request to the allocator
was refused.  If a fetch, load or store was refused the machine is running, and whatever
registers, memory and heap it is given it takes the step that it would have taken with them.
After any other error it has halted, and stays so whatever it is given. -/
theorem failed_step_precise (h : step m = .error e m') :
    m.Spares m' ∧ ((∀ f, e ≠ .heap f) → m'.arena = m.arena) ∧
      (m'.state = .running ↔ ∃ f, e = .memory f) ∧
      (m'.state = .running → m' = m.withState .running ∧
        ∀ p : Guest x, step { m' with toGuest := p } = step { m with toGuest := p }) ∧
      (m'.state ≠ .running → m'.state = .halted ∧
        ∀ (p : Guest x) (bs : Std.ExtTreeSet Nat),
          AtRest { m' with toGuest := p, breakpoints := bs }) := by
  have hstepped := stepped_of_eq h
  obtain ⟨hspares, harena⟩ := hstepped.spares
  obtain ⟨hlive, ⟨hmemory, rfl⟩ | ⟨hother, hhalted⟩⟩ := hstepped.fails
  · refine ⟨hspares, harena, iff_of_true rfl hmemory, fun _ => ⟨rfl, fun p => ?_⟩,
      fun hstate => absurd rfl hstate⟩
    exact step_withState (m := { m with toGuest := p }) hlive nofun
  · have hstate : m'.state ≠ .running := by
      rw [hhalted]
      exact nofun
    refine ⟨hspares, harena, iff_of_false hstate ?_, fun hrunning => absurd hrunning hstate,
      fun _ => ⟨hhalted, fun p bs => atRest_of_halted hhalted⟩⟩
    rintro ⟨f, rfl⟩
    exact hother f rfl

/-- The instruction `lw t0, 1(sp)`, on a machine that enforces alignment. -/
def strayLoad : Except ConfigError (Machine .rv32) :=
  boot { memory := { aligned := true } } { text := [0x00112283#32] }

/-- The load is refused, and succeeds once the stack pointer is put right. -/
theorem failed_step_precise_strayLoad : ∃ m m' : Machine .rv32,
    strayLoad = .ok m ∧ step m = .error (.memory (.misaligned 0x7FFFFFF1 4)) m' ∧
      m'.pc = m.pc ∧ m'.registers = m.registers ∧ m'.arena = m.arena ∧ m'.state = .running ∧
      step (m'.writeRegister Register.sp 0x7FFFFFEF) =
        step (m.writeRegister Register.sp 0x7FFFFFEF) := by
  obtain ⟨m, hm⟩ : ∃ m, strayLoad = .ok m := ⟨_, rfl⟩
  have hfails : (strayLoad.toOption.bind fun m => match step m with
      | .ok _ _ => none
      | .error e _ => some e) = some (.memory (.misaligned 0x7FFFFFF1 4)) := by
    decide +kernel
  rw [hm] at hfails
  cases hstep : step m with
  | ok s m' =>
    simp only [Except.toOption, Option.bind_some, hstep] at hfails
    cases hfails
  | error e m' =>
    simp only [Except.toOption, Option.bind_some, hstep] at hfails
    cases hfails
    obtain ⟨hspares, harena, hrunning, hresumes, -⟩ := failed_step_precise hstep
    have hstate := hrunning.2 ⟨_, rfl⟩
    obtain ⟨rfl, hresumed⟩ := hresumes hstate
    refine ⟨m, _, hm, hstep, hspares.pc, hspares.registers, harena nofun, hstate, ?_⟩
    exact hresumed { m.toGuest with registers := m.registers.write Register.sp 0x7FFFFFEF }

end Machine

end Hart
