/-
Runs under a limit of steps.

A machine whose configuration limits its steps takes the steps of the unlimited machine, as
long as it has executed fewer instructions than it may, and then one that fails.

* `lasting_cycles_le` — no machine ever executes more instructions than it may;
* `step_withLimit` — below the limit a step is that of the unlimited machine;
* `truncated` — so a limited run ends as the unlimited one or is cut off at the limit;
* `run_withLimit` — the same for a booted machine, with the number of steps that it takes.

Design notes: a program may end with the very instruction that reaches the limit, but it
cannot fail there, because the limit is looked at before the next instruction is.
-/
import Hart.Proofs.Image.Placement
import Hart.Proofs.Machine.Failing
import Hart.Proofs.Machine.Hosting

namespace Hart

variable {x : Xlen} {L : Nat}

/-! ### Limits -/

/-- The configuration with another limit of steps. -/
def Config.withLimit (c : Config) (limit : Option Nat) : Config :=
  { c with general := { c.general with maxSteps := limit } }

def Setup.withLimit (s : Setup) (limit : Option Nat) : Setup :=
  { s with config := s.config.withLimit limit }

namespace Machine

variable {m m' : Machine x} {r : RunResult x}

/-- The machine under another limit of steps. -/
def withLimit (m : Machine x) (limit : Option Nat) : Machine x :=
  { m with setup := m.setup.withLimit limit }

/-- The limit of steps that the machine is under. -/
def limit? (m : Machine x) : Option Nat :=
  m.setup.config.general.maxSteps

theorem Stepped.limit?_eq {r : EStateM.Result RunError (Machine x) RunState} (h : m.Stepped r) :
    (after r).limit? = m.limit? := by
  rw [limit?, h.setup_eq, limit?]

/-- Booting does not look at the limit. -/
theorem boot_withLimit (c : Config) (p : Program) (limit : Option Nat) :
    boot (c.withLimit limit) p = (boot c p).map (·.withLimit limit) := by
  have hcheck : (c.withLimit limit).check = c.check := rfl
  have hfault : (Setup.place (c.withLimit limit) p).fault? = (Setup.place c p).fault? := rfl
  rw [boot_eq, boot_eq, hcheck, hfault]
  cases c.check with
  | error e => rfl
  | ok u => cases (Setup.place c p).fault? <;> rfl

/-- The machine never executes more instructions than it may. -/
theorem lasting_cycles_le (L : Nat) :
    Lasting fun m : Machine x => m.limit? = some L ∧ m.statistics.cycles ≤ L where
  step m h := by
    obtain ⟨hlimit, hle⟩ := h
    refine ⟨m.stepped.limit?_eq.trans hlimit, ?_⟩
    obtain hsame | ⟨⟨i, hfaces⟩, hmore⟩ := m.stepped.cycles
    · rw [hsame]
      exact hle
    · rw [hmore]
      exact hfaces.limit L hlimit
  pause _ h _ _ := h
  reset _ h := ⟨h.1, Nat.zero_le L⟩
  watch _ _ h := h
  writeRegister _ _ _ h := h
  writeMemory _ _ h := h
  request _ _ h := h

/-! ### Steps -/

/-- Below the limit a step is that of the unlimited machine, and so is one that ends the
program. -/
theorem step_withLimit (hfree : m.limit? = none)
    (hbelow : m.state ≠ .halted → m.InText m.pc → m.statistics.cycles < L) :
    step (m.withLimit (some L)) = StepM.mapMachine (·.withLimit (some L)) (step m) := by
  refine step_reframe (f := (·.withLimit (some L))) (g := id) (fun _ => ⟨rfl, rfl⟩)
    fun hlive htext => ?_
  have hspent : m.spent? = none := by
    rw [spent?, show m.setup.config.general.maxSteps = none from hfree]
    rfl
  rw [hspent, spent?_eq_none]
  rintro k hk
  cases hk
  exact hbelow hlive htext

/-- At the limit the next instruction is not executed. -/
theorem step_withLimit_of_spent (hlive : m.state ≠ .halted) (htext : m.InText m.pc)
    (hspent : L ≤ m.statistics.cycles) :
    step (m.withLimit (some L)) =
      .error (.stepLimit L m.pc.toNat) ((m.withState .halted).withLimit (some L)) := by
  have hlimit : (m.withLimit (some L)).spent? = some L :=
    Option.filter_eq_some_iff.2 ⟨rfl, decide_eq_true hspent⟩
  exact step_of_spent (m := m.withLimit (some L)) hlive htext hlimit

/-! ### Runs -/

/-- A run does not undo what it has counted. -/
theorem RunsTo.cycles_le (h : RunsTo m r) : m.statistics.cycles ≤ (after r).statistics.cycles := by
  rw [runsTo_iff_drives_step] at h
  induction h with
  | last hcall hfinal => exact (stepped_of_eq hcall).cycles_mono
  | @again m m' s r hcall hgoes hrest ih =>
    have hfirst : m.statistics.cycles ≤ m'.statistics.cycles := (stepped_of_eq hcall).cycles_mono
    exact hfirst.trans ih

/-- The run has ended before it was cut off by the limit: the program has ended with at most
so many instructions, or it has failed after fewer. -/
def Within (L : Nat) : RunResult x → Prop
  | .ok _ m => m.statistics.cycles ≤ L
  | .error _ m => m.statistics.cycles < L

theorem Within.cycles_le (h : Within L r) : (after r).statistics.cycles ≤ L := by
  cases r with
  | ok s m => exact h
  | error e m => exact Nat.le_of_lt h

/-- In front of an instruction that it may not execute, a run does not end in time. -/
theorem RunsTo.not_within (h : RunsTo m r) (hlive : m.state ≠ .halted) (htext : m.InText m.pc)
    (hspent : m.statistics.cycles = L) : ¬ Within L r := by
  intro hwithin
  cases hstep : step m with
  | error e m' =>
    rw [(runsTo_iff_of_error hstep).1 h] at hwithin
    have hsame : m'.statistics.cycles = m.statistics.cycles :=
      (stepped_of_eq hstep).spares.1.mix.cycles
    exact absurd (hsame.trans hspent) (Nat.ne_of_lt hwithin)
  | ok s m' =>
    have hmore := cycles_of_step hlive htext hstep
    have hle := ((runsTo_iff_of_step hstep).1 h).cycles_le.trans hwithin.cycles_le
    omega

/-- The limited run, in so many steps, ends as the unlimited one does within the limit, or it
is cut off when the unlimited one has taken so many steps and does not end in time. -/
def Truncated (L steps : Nat) (m : Machine x) : Prop :=
  (∃ r, RunsTo m r ∧ Within L r ∧
      run (steps + 1) (m.withLimit (some L)) =
        some (StepM.mapMachine (·.withLimit (some L)) r)) ∨
    (∀ r, RunsTo m r → ¬ Within L r) ∧ ∃ m₁, Steps steps m m₁ ∧
      run (steps + 1) (m.withLimit (some L)) =
        some (.error (.stepLimit L m₁.pc.toNat) ((m₁.withState .halted).withLimit (some L)))

theorem truncated_of_halted (steps : Nat) (h : m.state = .halted)
    (hle : m.statistics.cycles ≤ L) : Truncated L steps m :=
  .inl ⟨.ok .halted m, (runsTo_iff_of_halted h).2 rfl, hle,
    run_of_halted (m := m.withLimit (some L)) _ h⟩

theorem truncated_of_error {e : RunError} (steps : Nat) (hstep : step m = .error e m')
    (hlimited : step (m.withLimit (some L)) = StepM.mapMachine (·.withLimit (some L)) (step m))
    (hlt : m.statistics.cycles < L) : Truncated L steps m := by
  have hlive : (m.withLimit (some L)).state ≠ .halted := ne_halted_of_error (m := m) hstep
  have hsame : m'.statistics.cycles = m.statistics.cycles :=
    (stepped_of_eq hstep).spares.1.mix.cycles
  have hwithin : m'.statistics.cycles < L := hsame ▸ hlt
  refine .inl ⟨.error e m', (runsTo_iff_of_error hstep).2 rfl, hwithin, ?_⟩
  rw [run_succ steps hlive, hlimited, hstep]
  rfl

theorem truncated_of_end (steps : Nat) (hlive : m.state ≠ .halted)
    (hstep : step m = .ok .halted m')
    (hlimited : step (m.withLimit (some L)) = StepM.mapMachine (·.withLimit (some L)) (step m))
    (hle : m'.statistics.cycles ≤ L) : Truncated L steps m := by
  have hlive : (m.withLimit (some L)).state ≠ .halted := hlive
  have hhalted : m'.state = .halted := state_of_step hstep
  refine .inl ⟨.ok .halted m', ?_, hle, ?_⟩
  · exact (runsTo_iff_of_step hstep).2 ((runsTo_iff_of_halted hhalted).2 rfl)
  · rw [run_succ steps hlive, hlimited, hstep]
    exact run_of_halted (m := m'.withLimit (some L)) steps hhalted

/-- The first step of a run that is not cut off at once. -/
theorem Truncated.of_step {s : RunState} {steps : Nat} (h : Truncated L steps m')
    (hlive : m.state ≠ .halted) (hstep : step m = .ok s m') (hgoes : s ≠ .halted)
    (hlimited : step (m.withLimit (some L)) = StepM.mapMachine (·.withLimit (some L)) (step m)) :
    Truncated L (steps + 1) m := by
  have hlive : (m.withLimit (some L)).state ≠ .halted := hlive
  have hrun : run (steps + 1 + 1) (m.withLimit (some L)) =
      run (steps + 1) (m'.withLimit (some L)) := by
    rw [run_succ (steps + 1) hlive, hlimited, hstep]
    rfl
  obtain ⟨r, hr, hwithin, hend⟩ | ⟨hlate, m₁, hsteps, hend⟩ := h
  · exact .inl ⟨r, (runsTo_iff_of_step hstep).2 hr, hwithin, hrun.trans hend⟩
  · refine .inr ⟨fun r hr => hlate r ((runsTo_iff_of_step hstep).1 hr), m₁,
      .succ hstep hgoes hsteps, hrun.trans hend⟩

/-- A limited run of an unlimited machine. -/
theorem truncated {steps : Nat} (hfree : m.limit? = none)
    (hsteps : m.statistics.cycles + steps = L) : Truncated L steps m := by
  induction steps generalizing m with
  | zero =>
    by_cases hhalted : m.state = .halted
    · exact truncated_of_halted 0 hhalted (Nat.le_of_eq hsteps)
    by_cases htext : m.InText m.pc
    · have hlive : (m.withLimit (some L)).state ≠ .halted := hhalted
      refine .inr ⟨fun r hr => hr.not_within hhalted htext hsteps, m, .zero m, ?_⟩
      rw [run_succ 0 hlive, step_withLimit_of_spent hhalted htext (Nat.le_of_eq hsteps.symm)]
    · -- The limit does not keep a program from running off its text.
      have hlimited := step_withLimit (L := L) hfree fun _ hin => absurd hin htext
      exact truncated_of_end 0 hhalted (step_of_outside hhalted htext) hlimited
        (Nat.le_of_eq hsteps)
  | succ steps ih =>
    by_cases hhalted : m.state = .halted
    · exact truncated_of_halted _ hhalted (by omega)
    have hlt : m.statistics.cycles < L := by omega
    have hlimited := step_withLimit hfree fun _ _ => hlt
    cases hstep : step m with
    | error e m' => exact truncated_of_error _ hstep hlimited hlt
    | ok s m' =>
      by_cases hs : s = .halted
      · subst hs
        have hle : m'.statistics.cycles ≤ m.statistics.cycles + 1 :=
          (stepped_of_eq hstep).cycles_le_succ
        exact truncated_of_end _ hhalted hstep hlimited (hle.trans hlt)
      · have hmore := cycles_of_step hhalted (inText_of_step hstep hs) hstep
        have hfree' : m'.limit? = none := (stepped_of_eq hstep).limit?_eq.trans hfree
        exact (ih hfree' (by omega)).of_step hhalted hstep hs hlimited

/-- A limit of `L` steps only cuts runs off.  From a freshly booted machine the limited run
ends within `L + 1` steps, and whatever its host does, the machine has never executed more
than `L` instructions.  If the unlimited run ends within the limit, the limited one has the
same result, up to the limit itself; if not, the limited one fails, and leaves the machine
halted as the unlimited one is after `L` steps. -/
theorem run_withLimit {c : Config} {p : Program} {m : Machine c.general.xlen}
    (hm : boot (c.withLimit (some L)) p = .ok m) :
    (∃ r, run (L + 1) m = some r) ∧
      (∀ m', Driven (c.withLimit (some L)) p m' → m'.statistics.cycles ≤ L) ∧
      ∃ u : Machine c.general.xlen, boot (c.withLimit none) p = .ok u ∧
        (∀ r, RunsTo u r → Within L r →
          RunsTo m (StepM.mapMachine (·.withLimit (some L)) r)) ∧
        ((∀ r, RunsTo u r → ¬ Within L r) → ∃ u₁, Steps L u u₁ ∧ u₁.statistics.cycles = L ∧
          RunsTo m (.error (.stepLimit L u₁.pc.toNat)
            ((u₁.withState .halted).withLimit (some L)))) := by
  obtain ⟨m₀, hm₀, rfl⟩ : ∃ m₀, boot c p = .ok m₀ ∧ m₀.withLimit (some L) = m := by
    rw [boot_withLimit] at hm
    cases hboot : boot c p with
    | error e =>
      rw [hboot] at hm
      cases hm
    | ok m₀ =>
      rw [hboot] at hm
      cases hm
      exact ⟨m₀, rfl, rfl⟩
  have hbound (m' : Machine c.general.xlen) (h : Driven (c.withLimit (some L)) p m') :
      m'.statistics.cycles ≤ L := by
    refine ((lasting_cycles_le L).driven (fun m₁ hm₁ => ?_) h).2
    rw [limit?, (boot_spec hm₁).1, statistics_boot hm₁]
    exact ⟨rfl, Nat.zero_le L⟩
  have hu : boot (c.withLimit none) p = .ok (m₀.withLimit none) := by
    rw [boot_withLimit, hm₀]
    rfl
  have hfresh : (m₀.withLimit none).statistics.cycles + L = L := by
    show m₀.statistics.cycles + L = L
    rw [statistics_boot hm₀]
    exact Nat.zero_add L
  obtain ⟨r, hr, hwithin, hend⟩ | ⟨hlate, u₁, hsteps, hend⟩ :=
    truncated (m := m₀.withLimit none) rfl hfresh
  · refine ⟨⟨_, hend⟩, hbound, _, hu, fun r' hr' _ => ?_, fun hlate => absurd hwithin (hlate r hr)⟩
    rw [hr'.unique hr]
    exact ⟨L + 1, hend⟩
  · refine ⟨⟨_, hend⟩, hbound, _, hu, fun r hr hwithin => absurd hwithin (hlate r hr),
      fun _ => ⟨u₁, hsteps, ?_, L + 1, hend⟩⟩
    exact hsteps.cycles.trans hfresh

/-- The instruction `addi zero, zero, 0`. -/
def idle : Program := { text := [0x00000013#32] }

/-- A limit of one step lets the program end, and a limit of none cuts it off. -/
theorem run_withLimit_idle : ∃ m₁ m₀ u u' : Machine .rv32,
    boot (Config.withLimit {} (some 1)) idle = .ok m₁ ∧
      boot (Config.withLimit {} (some 0)) idle = .ok m₀ ∧
      RunsTo u (.ok .halted u') ∧ u'.statistics.cycles = 1 ∧
      RunsTo m₁ (.ok .halted (u'.withLimit (some 1))) ∧
      RunsTo m₀ (.error (.stepLimit 0 u.pc.toNat) ((u.withState .halted).withLimit (some 0))) := by
  obtain ⟨m₁, hm₁⟩ : ∃ m : Machine .rv32, boot (Config.withLimit {} (some 1)) idle = .ok m :=
    ⟨_, rfl⟩
  obtain ⟨m₀, hm₀⟩ : ∃ m : Machine .rv32, boot (Config.withLimit {} (some 0)) idle = .ok m :=
    ⟨_, rfl⟩
  obtain ⟨-, -, u, hu, hends, -⟩ := run_withLimit (c := {}) hm₁
  obtain ⟨-, -, v, hv, -, hcut⟩ := run_withLimit (c := {}) hm₀
  cases hu.symm.trans hv
  have hparts : ((boot (Config.withLimit {} none) idle).toOption.bind fun u =>
      (run 1 u).map fun r => ((verdict r).toOption, (after r).statistics.cycles)) =
        some (some .halted, 1) := by
    decide +kernel
  rw [hu] at hparts
  obtain ⟨r, hlast, hr⟩ := Option.map_eq_some_iff.1 hparts
  obtain ⟨hverdict, hcycles⟩ := Prod.mk.inj hr
  cases r with
  | error e u' => cases hverdict
  | ok s u' =>
    obtain rfl : s = .halted := Option.some.inj hverdict
    have hruns : RunsTo u (.ok .halted u') := ⟨1, hlast⟩
    have hlate (r : RunResult .rv32) (hr : RunsTo u r) : ¬ Within 0 r := by
      rw [hr.unique hruns]
      exact fun hle => absurd (hcycles.ge.trans hle) (Nat.not_succ_le_zero 0)
    obtain ⟨u₁, hnone, -, hcut⟩ := hcut hlate
    cases hnone
    exact ⟨m₁, m₀, u, u', hm₁, hm₀, hruns, hcycles,
      hends _ hruns (Nat.le_of_eq hcycles), hcut⟩

end Machine

end Hart
