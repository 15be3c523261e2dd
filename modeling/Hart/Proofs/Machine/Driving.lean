/-
Three ways to drive a machine, and their agreement.

A machine can be run at once, stepped again and again, or run from breakpoint to
breakpoint.  `Drives call m r` says that making the call over and over from `m`, until the
machine halts or an error comes back, ends with the result `r`:

* `runsTo_iff_drives_step` — stepping ends as the run does;
* `runsTo_iff_drives_pausesWith` — so does running from breakpoint to breakpoint;
* `pausesWith_iff_pausesAfter` — a call pauses with the machine `m₁` if `PausesAfter k m m₁`:
  after `k` steps `m₁` is the first one in front of a breakpoint;
* `PausesWith.resumed` — a paused machine takes its step before all else;
* `drivers_agree` — all of this for any machine.

Design notes: the number of steps that a run may use is no part of these statements.  A
result is what some number of steps yields, and a machine without a result runs forever,
so two drivers with the same results also run forever together.
-/
import Hart.Proofs.Image.Loading
import Hart.Proofs.Machine.Counting

namespace Hart.Machine

variable {x : Xlen} {m m' m₁ : Machine x} {s : RunState} {r r' : RunResult x} {e : RunError}
  {k n : Nat}

/-! ### Results -/

/-- After this result there is nothing left to drive. -/
def Final : RunResult x → Prop
  | .ok s _ => s = .halted
  | .error _ _ => True

/-- Making the call again and again, until the machine halts or an error comes back, ends
with the result. -/
inductive Drives (call : Machine x → RunResult x → Prop) : Machine x → RunResult x → Prop
  | last {m : Machine x} {r : RunResult x} (hcall : call m r) (hfinal : Final r) :
      Drives call m r
  | again {m m' : Machine x} {s : RunState} {r : RunResult x} (hcall : call m (.ok s m'))
      (hgoes : s ≠ .halted) (hrest : Drives call m' r) : Drives call m r

/-- The run ends with the result. -/
def RunsTo (m : Machine x) (r : RunResult x) : Prop :=
  ∃ n, run n m = some r

/-- The run to a breakpoint ends with the result. -/
def PausesWith (m : Machine x) (r : RunResult x) : Prop :=
  ∃ n, runToBreakpoint n m = some r

/-! ### Runs, step by step -/

/-- A step that fails ends the run. -/
theorem runsTo_iff_of_error (hstep : step m = .error e m') : RunsTo m r ↔ r = .error e m' := by
  have hlive := ne_halted_of_error hstep
  have hrun (n : Nat) : run (n + 1) m = some (.error e m') := by rw [run_succ n hlive, hstep]
  constructor
  · rintro ⟨n, h⟩
    cases n with
    | zero =>
      rw [run_zero hlive] at h
      cases h
    | succ n =>
      rw [hrun n] at h
      exact (Option.some.inj h).symm
  · rintro rfl
    exact ⟨1, hrun 0⟩

/-- A step that succeeds leaves the result of the run as it is. -/
theorem runsTo_iff_of_step (hstep : step m = .ok s m') : RunsTo m r ↔ RunsTo m' r := by
  by_cases hhalted : m.state = .halted
  · rw [step_of_halted hhalted] at hstep
    cases hstep
    rfl
  · have hrun (n : Nat) : run (n + 1) m = run n m' := by rw [run_succ n hhalted, hstep]
    constructor
    · rintro ⟨n, h⟩
      cases n with
      | zero =>
        rw [run_zero hhalted] at h
        cases h
      | succ n => exact ⟨n, (hrun n).symm.trans h⟩
    · rintro ⟨n, h⟩
      exact ⟨n + 1, (hrun n).trans h⟩

/-- A run forgets in which state the machine stood, unless it had halted. -/
theorem runsTo_withState (h : m.state ≠ .halted) (hs : s ≠ .halted) :
    RunsTo (m.withState s) r ↔ RunsTo m r := by
  cases hstep : step m with
  | error e m' =>
    rw [runsTo_iff_of_error hstep, runsTo_iff_of_error ((step_withState h hs).trans hstep)]
  | ok s' m' =>
    rw [runsTo_iff_of_step hstep, runsTo_iff_of_step ((step_withState h hs).trans hstep)]

theorem runsTo_iff_of_halted (h : m.state = .halted) : RunsTo m r ↔ r = .ok .halted m := by
  constructor
  · rintro ⟨n, hrun⟩
    rw [run_of_halted n h] at hrun
    exact (Option.some.inj hrun).symm
  · rintro rfl
    exact ⟨0, run_of_halted 0 h⟩

theorem drives_step_of_halted (h : m.state = .halted) (hrun : RunsTo m r) :
    Drives (fun m r => step m = r) m r := by
  rw [(runsTo_iff_of_halted h).1 hrun]
  exact .last (step_of_halted h) rfl

/-- Stepping a machine until it halts or fails ends as its run does. -/
theorem runsTo_iff_drives_step : RunsTo m r ↔ Drives (fun m r => step m = r) m r := by
  constructor
  · rintro ⟨n, h⟩
    induction n generalizing m with
    | zero =>
      by_cases hhalted : m.state = .halted
      · exact drives_step_of_halted hhalted ⟨0, h⟩
      · rw [run_zero hhalted] at h
        cases h
    | succ n ih =>
      by_cases hhalted : m.state = .halted
      · exact drives_step_of_halted hhalted ⟨n + 1, h⟩
      · rw [run_succ n hhalted] at h
        cases hstep : step m with
        | error e m' =>
          rw [hstep] at h
          rw [← Option.some.inj h]
          exact .last hstep trivial
        | ok s m' =>
          rw [hstep] at h
          by_cases hs : s = .halted
          · -- The step halts the machine, and the rest of the run is over at once.
            have hend : m'.state = .halted := (state_of_step hstep).trans hs
            rw [(runsTo_iff_of_halted hend).1 ⟨n, h⟩]
            exact .last (hs ▸ hstep) rfl
          · exact .again hstep hs (ih h)
  · intro h
    induction h with
    | @last m r hcall hfinal =>
      cases r with
      | error e m' => exact (runsTo_iff_of_error hcall).2 rfl
      | ok s m' =>
        have hend : m'.state = s := state_of_step hcall
        rw [show s = .halted from hfinal] at hend ⊢
        exact (runsTo_iff_of_step hcall).2 ((runsTo_iff_of_halted hend).2 rfl)
    | again hcall hgoes hrest ih => exact (runsTo_iff_of_step hcall).2 ih

/-- A call with at most one answer drives a machine to at most one result. -/
theorem Drives.unique {call : Machine x → RunResult x → Prop}
    (hcall : ∀ m r r', call m r → call m r' → r = r') (h : Drives call m r)
    (h' : Drives call m r') : r = r' := by
  induction h with
  | last hlast hfinal =>
    cases h' with
    | last hlast' => exact hcall _ _ _ hlast hlast'
    | again hagain hgoes =>
      cases hcall _ _ _ hlast hagain
      exact absurd hfinal hgoes
  | again hagain hgoes hrest ih =>
    cases h' with
    | last hlast hfinal =>
      cases hcall _ _ _ hagain hlast
      exact absurd hfinal hgoes
    | again hagain' hgoes' hrest' =>
      cases hcall _ _ _ hagain hagain'
      exact ih hrest'

/-- A run has at most one result. -/
theorem RunsTo.unique (h : RunsTo m r) (h' : RunsTo m r') : r = r' := by
  refine Drives.unique (fun m r r' hr hr' => ?_) (runsTo_iff_drives_step.1 h)
    (runsTo_iff_drives_step.1 h')
  exact hr.symm.trans hr'

/-! ### Runs to a breakpoint -/

/-- The next instruction is in text and a breakpoint. -/
def FacesBreakpoint (m : Machine x) : Prop :=
  m.InText m.pc ∧ m.IsBreakpoint m.pc

/-- So many steps lead from one machine to the other, and none of them ends the program. -/
inductive Steps : Nat → Machine x → Machine x → Prop
  | zero (m : Machine x) : Steps 0 m m
  | succ {k : Nat} {m m' m₁ : Machine x} {s : RunState} (hstep : step m = .ok s m')
      (hgoes : s ≠ .halted) (hrest : Steps k m' m₁) : Steps (k + 1) m m₁

/-- After so many steps from `m` the machine `m₁` is the first one in front of a
breakpoint, not counting the one in front of which `m` has paused. -/
structure PausesAfter (k : Nat) (m m₁ : Machine x) : Prop where
  steps : Steps k m m₁
  live : m₁.state ≠ .halted
  breakpoint : m₁.FacesBreakpoint
  /-- A paused machine moves on. -/
  resumes : m.state = .atBreakpoint → 0 < k
  /-- Only the paused machine was passed by in front of a breakpoint. -/
  first : ∀ j < k, ∀ m₂, Steps j m m₂ → m₂.FacesBreakpoint → j = 0 ∧ m.state = .atBreakpoint

/-- Each step takes one cycle. -/
theorem Steps.cycles (h : Steps k m m₁) :
    m₁.statistics.cycles = m.statistics.cycles + k := by
  induction h with
  | zero m => rfl
  | succ hstep hgoes hrest ih =>
    have hlive := ne_halted_of_step hstep hgoes
    rw [ih, cycles_of_step hlive (inText_of_step hstep hgoes) hstep]
    omega

theorem Steps.runsTo_iff (h : Steps k m m₁) : RunsTo m r ↔ RunsTo m₁ r := by
  induction h with
  | zero m => rfl
  | succ hstep hgoes hrest ih => exact (runsTo_iff_of_step hstep).trans ih

theorem ne_atBreakpoint_of_step (hstep : step m = .ok s m') : m'.state ≠ .atBreakpoint :=
  (stepped_of_eq hstep).unpaused.ne_atBreakpoint

theorem ne_atBreakpoint_of_error (hstep : step m = .error e m') : m'.state ≠ .atBreakpoint :=
  (stepped_of_eq hstep).unpaused.ne_atBreakpoint

theorem runUntilBreakpoint_of_halted (n : Nat) (h : m.state = .halted) :
    runUntilBreakpoint n m = some (.ok .halted m) := by
  rw [runUntilBreakpoint.eq_def, if_pos h]

theorem runUntilBreakpoint_of_breakpoint (n : Nat) (hlive : m.state ≠ .halted)
    (h : m.FacesBreakpoint) :
    runUntilBreakpoint n m = some (.ok .atBreakpoint (m.withState .atBreakpoint)) := by
  rw [runUntilBreakpoint.eq_def, if_neg hlive]
  exact if_pos h

theorem runUntilBreakpoint_zero (hlive : m.state ≠ .halted) (h : ¬ m.FacesBreakpoint) :
    runUntilBreakpoint 0 m = none :=
  (if_neg hlive).trans (if_neg h)

theorem runUntilBreakpoint_succ (n : Nat) (hlive : m.state ≠ .halted)
    (h : ¬ m.FacesBreakpoint) :
    runUntilBreakpoint (n + 1) m = match step m with
      | .ok _ m' => runUntilBreakpoint n m'
      | .error e m' => some (.error e m') :=
  (if_neg hlive).trans (if_neg h)

theorem runToBreakpoint_of_paused (n : Nat) (h : m.state = .atBreakpoint) :
    runToBreakpoint n m = match step m with
      | .ok _ m' => runUntilBreakpoint n m'
      | .error e m' => some (.error e m') :=
  if_pos h

theorem runToBreakpoint_of_unpaused (n : Nat) (h : m.state ≠ .atBreakpoint) :
    runToBreakpoint n m = runUntilBreakpoint n m :=
  if_neg h

/-- The machine has halted, it pauses where it stands, or it takes a step. -/
theorem runUntilBreakpoint_eq_some (h : runUntilBreakpoint n m = some r) :
    (m.state = .halted ∧ r = .ok .halted m) ∨
      (m.state ≠ .halted ∧ m.FacesBreakpoint ∧
        r = .ok .atBreakpoint (m.withState .atBreakpoint)) ∨
      (m.state ≠ .halted ∧ ¬ m.FacesBreakpoint ∧ ∃ i, n = i + 1 ∧
        ((∃ e m', step m = .error e m' ∧ r = .error e m') ∨
          ∃ s m', step m = .ok s m' ∧ runUntilBreakpoint i m' = some r)) := by
  by_cases hhalted : m.state = .halted
  · rw [runUntilBreakpoint_of_halted n hhalted] at h
    exact .inl ⟨hhalted, (Option.some.inj h).symm⟩
  · refine .inr ?_
    by_cases hface : m.FacesBreakpoint
    · rw [runUntilBreakpoint_of_breakpoint n hhalted hface] at h
      exact .inl ⟨hhalted, hface, (Option.some.inj h).symm⟩
    · refine .inr ⟨hhalted, hface, ?_⟩
      cases n with
      | zero =>
        rw [runUntilBreakpoint_zero hhalted hface] at h
        cases h
      | succ i =>
        refine ⟨i, rfl, ?_⟩
        rw [runUntilBreakpoint_succ i hhalted hface] at h
        cases hstep : step m with
        | error e m' =>
          rw [hstep] at h
          exact .inl ⟨e, m', rfl, (Option.some.inj h).symm⟩
        | ok s m' =>
          rw [hstep] at h
          exact .inr ⟨s, m', rfl, h⟩

theorem runUntilBreakpoint_mono {n n' : Nat} (hn : n ≤ n')
    (h : runUntilBreakpoint n m = some r) : runUntilBreakpoint n' m = some r := by
  induction n' generalizing m n with
  | zero =>
    rw [Nat.le_zero.1 hn] at h
    exact h
  | succ n' ih =>
    obtain ⟨hhalted, rfl⟩ | ⟨hlive, hface, rfl⟩ | ⟨hlive, hface, i, rfl, hnext⟩ :=
      runUntilBreakpoint_eq_some h
    · exact runUntilBreakpoint_of_halted _ hhalted
    · exact runUntilBreakpoint_of_breakpoint _ hlive hface
    · rw [runUntilBreakpoint_succ n' hlive hface]
      obtain ⟨e, m', hstep, rfl⟩ | ⟨s, m', hstep, hrest⟩ := hnext
      · rw [hstep]
      · rw [hstep]
        exact ih (Nat.le_of_succ_le_succ hn) hrest

theorem runToBreakpoint_mono {n n' : Nat} (hn : n ≤ n') (h : runToBreakpoint n m = some r) :
    runToBreakpoint n' m = some r := by
  by_cases hpaused : m.state = .atBreakpoint
  · rw [runToBreakpoint_of_paused _ hpaused] at h ⊢
    cases hstep : step m with
    | error e m' =>
      rw [hstep] at h
      exact h
    | ok s m' =>
      rw [hstep] at h
      exact runUntilBreakpoint_mono hn h
  · rw [runToBreakpoint_of_unpaused _ hpaused] at h ⊢
    exact runUntilBreakpoint_mono hn h

/-- A run to a breakpoint has at most one result. -/
theorem PausesWith.unique (h : PausesWith m r) (h' : PausesWith m r') : r = r' := by
  obtain ⟨n, h⟩ := h
  obtain ⟨n', h'⟩ := h'
  have hmax := runToBreakpoint_mono (Nat.le_max_left n n') h
  exact Option.some.inj (hmax.symm.trans (runToBreakpoint_mono (Nat.le_max_right n n') h'))

/-! ### What a run to a breakpoint answers -/

theorem pausesWith_of_halted (h : m.state = .halted) : PausesWith m (.ok .halted m) := by
  have hawake : m.state ≠ .atBreakpoint := by
    rw [h]
    exact nofun
  exact ⟨0, (runToBreakpoint_of_unpaused 0 hawake).trans (runUntilBreakpoint_of_halted 0 h)⟩

theorem pausesWith_of_breakpoint (hlive : m.state ≠ .halted) (hawake : m.state ≠ .atBreakpoint)
    (h : m.FacesBreakpoint) :
    PausesWith m (.ok .atBreakpoint (m.withState .atBreakpoint)) :=
  ⟨0, (runToBreakpoint_of_unpaused 0 hawake).trans (runUntilBreakpoint_of_breakpoint 0 hlive h)⟩

/-- A machine that does not pause where it stands takes a step first. -/
theorem pausesWith_of_step (hlive : m.state ≠ .halted)
    (hpass : m.FacesBreakpoint → m.state = .atBreakpoint) (hstep : step m = .ok s m')
    (h : PausesWith m' r) : PausesWith m r := by
  obtain ⟨n, h⟩ := h
  rw [runToBreakpoint_of_unpaused n (ne_atBreakpoint_of_step hstep)] at h
  by_cases hpaused : m.state = .atBreakpoint
  · refine ⟨n, ?_⟩
    rw [runToBreakpoint_of_paused n hpaused, hstep]
    exact h
  · refine ⟨n + 1, ?_⟩
    rw [runToBreakpoint_of_unpaused _ hpaused,
      runUntilBreakpoint_succ n hlive fun hface => hpaused (hpass hface), hstep]
    exact h

theorem pausesWith_of_error (hlive : m.state ≠ .halted)
    (hpass : m.FacesBreakpoint → m.state = .atBreakpoint) (hstep : step m = .error e m') :
    PausesWith m (.error e m') := by
  by_cases hpaused : m.state = .atBreakpoint
  · refine ⟨0, ?_⟩
    rw [runToBreakpoint_of_paused 0 hpaused, hstep]
  · refine ⟨1, ?_⟩
    rw [runToBreakpoint_of_unpaused 1 hpaused,
      runUntilBreakpoint_succ 0 hlive fun hface => hpaused (hpass hface), hstep]

theorem PausesAfter.start_live (h : PausesAfter k m m₁) : m.state ≠ .halted := by
  intro hhalted
  cases h.steps with
  | zero => exact h.live hhalted
  | succ hstep hgoes hrest => exact ne_halted_of_step hstep hgoes hhalted

/-- One more step at the start, from a machine that does not pause where it stands. -/
theorem PausesAfter.succ (h : PausesAfter k m' m₁) (hstep : step m = .ok s m')
    (hpass : m.FacesBreakpoint → m.state = .atBreakpoint) : PausesAfter (k + 1) m m₁ where
  steps := by
    refine .succ hstep ?_ h.steps
    rw [← state_of_step hstep]
    exact h.start_live
  live := h.live
  breakpoint := h.breakpoint
  resumes _ := k.succ_pos
  first := by
    intro j hj m₂ hsteps hface
    cases hsteps with
    | zero => exact ⟨rfl, hpass hface⟩
    | @succ i _ n _ s' hstep' hgoes hrest =>
      rw [hstep] at hstep'
      cases hstep'
      obtain ⟨-, hpaused⟩ := h.first i (Nat.lt_of_succ_lt_succ hj) m₂ hrest hface
      exact absurd hpaused (ne_atBreakpoint_of_step hstep)

/-- The first step on the way to a breakpoint. -/
theorem PausesAfter.exists_step (h : PausesAfter (k + 1) m m₁) :
    ∃ s m', step m = .ok s m' ∧ (m.FacesBreakpoint → m.state = .atBreakpoint) ∧
      PausesAfter k m' m₁ := by
  obtain ⟨hsteps, hlive, hface, -, hfirst⟩ := h
  cases hsteps with
  | @succ _ _ m' _ s hstep hgoes hrest =>
    refine ⟨s, m', hstep, fun hhere => (hfirst 0 k.succ_pos m (.zero m) hhere).2,
      hrest, hlive, hface, fun hpaused => ?_, fun j hj m₂ hj' hface' => ?_⟩
    · exact absurd hpaused (ne_atBreakpoint_of_step hstep)
    · have hzero := (hfirst (j + 1) (Nat.succ_lt_succ hj) m₂ (.succ hstep hgoes hj') hface').1
      cases hzero

/-- The answer is the result of the run, or the machine in front of the first breakpoint. -/
def Answers (m : Machine x) (r : RunResult x) : Prop :=
  (Final r ∧ RunsTo m r) ∨
    ∃ k m₁, PausesAfter k m m₁ ∧ r = .ok .atBreakpoint (m₁.withState .atBreakpoint)

theorem Answers.of_step (h : Answers m' r) (hstep : step m = .ok s m')
    (hpass : m.FacesBreakpoint → m.state = .atBreakpoint) : Answers m r := by
  obtain ⟨hfinal, hrun⟩ | ⟨k, m₁, hpause, hr⟩ := h
  · exact .inl ⟨hfinal, (runsTo_iff_of_step hstep).2 hrun⟩
  · exact .inr ⟨k + 1, m₁, hpause.succ hstep hpass, hr⟩

theorem answers_of_error (hstep : step m = .error e m') : Answers m (.error e m') :=
  .inl ⟨trivial, (runsTo_iff_of_error hstep).2 rfl⟩

theorem answers_of_runUntilBreakpoint (hawake : m.state ≠ .atBreakpoint)
    (h : runUntilBreakpoint n m = some r) : Answers m r := by
  induction n using Nat.strongRecOn generalizing m with
  | ind n ih =>
    obtain ⟨hhalted, rfl⟩ | ⟨hlive, hface, rfl⟩ | ⟨hlive, hface, i, rfl, hnext⟩ :=
      runUntilBreakpoint_eq_some h
    · exact .inl ⟨rfl, (runsTo_iff_of_halted hhalted).2 rfl⟩
    · refine .inr ⟨0, m, ⟨.zero m, hlive, hface, fun hpaused => absurd hpaused hawake, ?_⟩, rfl⟩
      exact fun j hj => absurd hj (Nat.not_lt_zero j)
    · obtain ⟨e, m', hstep, rfl⟩ | ⟨s, m', hstep, hrest⟩ := hnext
      · exact answers_of_error hstep
      · have hanswer := ih i (Nat.lt_succ_self i) (ne_atBreakpoint_of_step hstep) hrest
        exact hanswer.of_step hstep fun hhere => absurd hhere hface

theorem PausesWith.answers (h : PausesWith m r) : Answers m r := by
  obtain ⟨n, h⟩ := h
  by_cases hpaused : m.state = .atBreakpoint
  · rw [runToBreakpoint_of_paused n hpaused] at h
    cases hstep : step m with
    | error e m' =>
      rw [hstep] at h
      rw [← Option.some.inj h]
      exact answers_of_error hstep
    | ok s m' =>
      rw [hstep] at h
      have hanswer := answers_of_runUntilBreakpoint (ne_atBreakpoint_of_step hstep) h
      exact hanswer.of_step hstep fun _ => hpaused
  · rw [runToBreakpoint_of_unpaused n hpaused] at h
    exact answers_of_runUntilBreakpoint hpaused h

/-- The first breakpoint on the way is not missed. -/
theorem PausesAfter.pausesWith (h : PausesAfter k m m₁) :
    PausesWith m (.ok .atBreakpoint (m₁.withState .atBreakpoint)) := by
  induction k generalizing m with
  | zero =>
    have hawake : m.state ≠ .atBreakpoint :=
      fun hpaused => absurd (h.resumes hpaused) (Nat.lt_irrefl 0)
    have hlive := h.start_live
    obtain ⟨hsteps, -, hface, -, -⟩ := h
    cases hsteps
    exact pausesWith_of_breakpoint hlive hawake hface
  | succ k ih =>
    obtain ⟨s, m', hstep, hpass, hrest⟩ := h.exists_step
    exact pausesWith_of_step h.start_live hpass hstep (ih hrest)

/-- A run to a breakpoint pauses in front of the first one on its way, with nothing of the
instruction there executed or counted. -/
theorem pausesWith_iff_pausesAfter :
    PausesWith m (.ok .atBreakpoint m') ↔
      ∃ k m₁, PausesAfter k m m₁ ∧ m' = m₁.withState .atBreakpoint := by
  constructor
  · intro h
    obtain ⟨hfinal, -⟩ | ⟨k, m₁, hpause, hr⟩ := h.answers
    · cases hfinal
    · cases hr
      exact ⟨k, m₁, hpause, rfl⟩
  · rintro ⟨k, m₁, hpause, rfl⟩
    exact hpause.pausesWith

/-! ### Running from breakpoint to breakpoint -/

/-- A machine may be taken to have paused already where it would pause at once. -/
theorem drives_of_resumed (hlive : m.state ≠ .halted)
    (h : ∀ m₀ : Machine x, step m₀ = step m → m₀.state ≠ .halted →
      (m₀.FacesBreakpoint → m₀.state = .atBreakpoint) → Drives PausesWith m₀ r) :
    Drives PausesWith m r := by
  by_cases hface : m.FacesBreakpoint
  · by_cases hpaused : m.state = .atBreakpoint
    · exact h m rfl hlive fun _ => hpaused
    · refine .again (pausesWith_of_breakpoint hlive hpaused hface) nofun ?_
      exact h (m.withState .atBreakpoint) (step_withState hlive nofun) nofun fun _ => rfl
  · exact h m rfl hlive fun hhere => absurd hhere hface

theorem drives_of_error (hstep : step m = .error e m') :
    Drives PausesWith m (.error e m') := by
  refine drives_of_resumed (ne_halted_of_error hstep) fun m₀ hsame hlive hpass => ?_
  exact .last (pausesWith_of_error hlive hpass (hsame.trans hstep)) trivial

theorem drives_of_step (hstep : step m = .ok s m') (h : Drives PausesWith m' r) :
    Drives PausesWith m r := by
  by_cases hhalted : m.state = .halted
  · rw [step_of_halted hhalted] at hstep
    cases hstep
    exact h
  · refine drives_of_resumed hhalted fun m₀ hsame hlive hpass => ?_
    cases h with
    | last hcall hfinal =>
      exact .last (pausesWith_of_step hlive hpass (hsame.trans hstep) hcall) hfinal
    | again hcall hgoes hrest =>
      exact .again (pausesWith_of_step hlive hpass (hsame.trans hstep) hcall) hgoes hrest

/-- Running from breakpoint to breakpoint ends as the run does. -/
theorem runsTo_iff_drives_pausesWith : RunsTo m r ↔ Drives PausesWith m r := by
  constructor
  · intro h
    -- The induction is on the steps of the run: each of them is a call or a part of one.
    rw [runsTo_iff_drives_step] at h
    induction h with
    | @last m r hcall hfinal =>
      cases r with
      | error e m' => exact drives_of_error hcall
      | ok s m' =>
        have hend : m'.state = s := state_of_step hcall
        rw [show s = .halted from hfinal] at hend ⊢
        exact drives_of_step hcall (.last (pausesWith_of_halted hend) rfl)
    | again hcall hgoes hrest ih => exact drives_of_step hcall ih
  · intro h
    induction h with
    | last hcall hfinal =>
      obtain ⟨-, hrun⟩ | ⟨k, m₁, -, rfl⟩ := hcall.answers
      · exact hrun
      · cases hfinal
    | again hcall hgoes hrest ih =>
      obtain ⟨hfinal, -⟩ | ⟨k, m₁, hpause, hr⟩ := hcall.answers
      · exact absurd hfinal hgoes
      · cases hr
        have hrun := (runsTo_withState (s := .atBreakpoint) hpause.live nofun).1 ih
        exact hpause.steps.runsTo_iff.2 hrun

/-! ### Paused machines -/

/-- A paused machine takes its step first, and the call goes on from there. -/
theorem PausesWith.resumed (hpaused : m.state = .atBreakpoint) (h : PausesWith m r) :
    (∃ e m', step m = .error e m' ∧ r = .error e m') ∨
      ∃ s m', step m = .ok s m' ∧ PausesWith m' r := by
  obtain ⟨n, h⟩ := h
  rw [runToBreakpoint_of_paused n hpaused] at h
  cases hstep : step m with
  | error e m' =>
    rw [hstep] at h
    exact .inl ⟨e, m', rfl, (Option.some.inj h).symm⟩
  | ok s m' =>
    rw [hstep] at h
    exact .inr ⟨s, m', rfl, n,
      (runToBreakpoint_of_unpaused n (ne_atBreakpoint_of_step hstep)).trans h⟩

/-- What a machine can become after it was booted: by steps, of which runs are made, by
pauses, by a host that changes the breakpoints, the registers, the memory or the heap, and
by starting over. -/
inductive Reachable : {x : Xlen} → Machine x → Prop
  | boot {c : Config} {p : Program} {m : Machine c.general.xlen} (hm : boot c p = .ok m) :
      Reachable m
  | step {x : Xlen} {m m' : Machine x} {s : RunState} (h : Reachable m)
      (hstep : step m = .ok s m') : Reachable m'
  | fail {x : Xlen} {m m' : Machine x} {e : RunError} (h : Reachable m)
      (hstep : Machine.step m = .error e m') : Reachable m'
  | pause {x : Xlen} {m m' : Machine x} (h : Reachable m)
      (hpause : PausesWith m (.ok .atBreakpoint m')) : Reachable m'
  | watch {x : Xlen} {m : Machine x} (h : Reachable m) (bs : Std.ExtTreeSet Nat) :
      Reachable (m.watching bs)
  | touch {x : Xlen} {m : Machine x} (h : Reachable m) (g : Guest x) :
      Reachable { m with toGuest := g }
  | reset {x : Xlen} {m : Machine x} (h : Reachable m) : Reachable m.reset

/-- A machine pauses in text only, and its program counter moves by steps only. -/
theorem Reachable.inText_of_paused (h : Reachable m) (hpaused : m.state = .atBreakpoint) :
    m.InText m.pc := by
  induction h with
  | boot hm =>
    rw [(boot_start hm).2.2] at hpaused
    cases hpaused
  | step h hstep ih => exact absurd hpaused (ne_atBreakpoint_of_step hstep)
  | fail h hstep ih => exact absurd hpaused (ne_atBreakpoint_of_error hstep)
  | pause h hpause ih =>
    obtain ⟨k, m₁, hfirst, rfl⟩ := pausesWith_iff_pausesAfter.1 hpause
    exact hfirst.breakpoint.1
  | watch h bs ih => exact ih hpaused
  | touch h g ih => exact ih hpaused
  | reset h ih => cases hpaused

/-! ### Agreement -/

/-- Running a machine, stepping it and running it from breakpoint to breakpoint, until it
halts or fails, end with the same result, if any.  Each pause on the way is in front of the
first breakpoint after the start, after as many cycles as steps.  A paused machine executes
an instruction before all else, unless that fails.  Runs and steps do not depend on the
breakpoints. -/
theorem drivers_agree (m : Machine x) :
    (∀ r, RunsTo m r ↔ Drives (fun m r => step m = r) m r) ∧
      (∀ r, RunsTo m r ↔ Drives PausesWith m r) ∧
      (∀ r r', RunsTo m r → RunsTo m r' → r = r') ∧
      (∀ r r', PausesWith m r → PausesWith m r' → r = r') ∧
      (∀ m', PausesWith m (.ok .atBreakpoint m') ↔
        ∃ k m₁, PausesAfter k m m₁ ∧ m₁.statistics.cycles = m.statistics.cycles + k ∧
          m' = m₁.withState .atBreakpoint) ∧
      (m.Reachable → m.state = .atBreakpoint → ∀ r, PausesWith m r →
        (∃ e m', step m = .error e m' ∧ r = .error e m') ∨
          ∃ s m', step m = .ok s m' ∧ m'.statistics.cycles = m.statistics.cycles + 1 ∧
            PausesWith m' r) ∧
      ∀ address, m.RunsLike (m.setBreakpoint address).2 ∧
        m.RunsLike (m.clearBreakpoint address).2 := by
  refine ⟨fun r => runsTo_iff_drives_step, fun r => runsTo_iff_drives_pausesWith,
    fun r r' => RunsTo.unique, fun r r' => PausesWith.unique, fun m' => ?_,
    fun hreach hpaused r hcall => ?_, fun address =>
      ⟨m.runsLike_setBreakpoint address, m.runsLike_clearBreakpoint address⟩⟩
  · rw [pausesWith_iff_pausesAfter]
    constructor
    · rintro ⟨k, m₁, hpause, rfl⟩
      exact ⟨k, m₁, hpause, hpause.steps.cycles, rfl⟩
    · rintro ⟨k, m₁, hpause, -, rfl⟩
      exact ⟨k, m₁, hpause, rfl⟩
  · obtain herror | ⟨s, m', hstep, hrest⟩ := hcall.resumed hpaused
    · exact .inl herror
    · have hlive : m.state ≠ .halted := by
        rw [hpaused]
        exact nofun
      have htext := hreach.inText_of_paused hpaused
      exact .inr ⟨s, m', hstep, cycles_of_step hlive htext hstep, hrest⟩

-- Of two `ebreak` in a row each pauses by itself.
example :
    (do
      let m ← (boot {} { text := [Instruction.ebreakWord, Instruction.ebreakWord] }).toOption
      let .ok _ m ← runToBreakpoint 1 m | none
      let .ok s m ← runToBreakpoint 1 m | none
      return (s, m.pc.toNat, m.statistics.cycles)) = some (RunState.atBreakpoint, 4, 1) := by
  decide +kernel

end Hart.Machine
