/-
Breakpoints are not seen by steps.

`Machine.watching m bs` is the machine `m` with the breakpoints `bs`, and steps and runs do
the same whatever they are:

* `step_watching`, `run_watching` — with other breakpoints a step and a run have the same
  outcome, up to them;
* `runsLike_setBreakpoint`, `runsLike_clearBreakpoint` — in particular after a breakpoint
  is registered or removed;
* `step_withState` — a step forgets in which state the machine stood, unless it had
  halted.
-/
import Hart.Machine.Run
import Hart.Proofs.Machine.Endings

namespace Hart

variable {x : Xlen} {α : Type}

namespace Machine

/-- The machine with other breakpoints. -/
def watching (m : Machine x) (bs : Std.ExtTreeSet Nat) : Machine x :=
  { m with breakpoints := bs }

end Machine

namespace StepM

/-- An outcome, with other breakpoints. -/
def watched (bs : Std.ExtTreeSet Nat) :
    EStateM.Result RunError (Machine x) α → EStateM.Result RunError (Machine x) α
  | .ok v m => .ok v (m.watching bs)
  | .error e m => .error e (m.watching bs)

theorem watched_eq (bs : Std.ExtTreeSet Nat) (r : EStateM.Result RunError (Machine x) α) :
    watched bs r = mapMachine (·.watching bs) r := by
  cases r <;> rfl

end StepM

namespace Machine

theorem ne_halted_of_error {m m' : Machine x} {e : RunError} (h : step m = .error e m') :
    m.state ≠ .halted := by
  intro hhalted
  rw [step_of_halted hhalted] at h
  cases h

theorem ne_halted_of_step {m m' : Machine x} {s : RunState} (h : step m = .ok s m')
    (hs : s ≠ .halted) : m.state ≠ .halted := by
  intro hhalted
  rw [step_of_halted hhalted] at h
  cases h
  exact hs rfl

/-- A machine that was paused takes the step that it would have taken. -/
theorem step_withState {m : Machine x} (h : m.state ≠ .halted) {s : RunState} (hs : s ≠ .halted) :
    step (m.withState s) = step m := by
  have hs' : (m.withState s).state ≠ .halted := hs
  rw [step_of_running h, step_of_running hs']
  rfl

theorem step_watching (m : Machine x) (bs : Std.ExtTreeSet Nat) :
    step (m.watching bs) = StepM.watched bs (step m) := by
  rw [StepM.watched_eq]
  exact step_reframe (f := id) (g := fun _ => bs) (fun _ => ⟨rfl, rfl⟩) fun _ _ => rfl

theorem run_of_halted {m : Machine x} (n : Nat) (h : m.state = .halted) :
    run n m = some (.ok .halted m) := by
  rw [run.eq_def, if_pos h]

theorem run_zero {m : Machine x} (h : m.state ≠ .halted) : run 0 m = none := by
  rw [run, if_neg h]

theorem run_succ {m : Machine x} (n : Nat) (h : m.state ≠ .halted) :
    run (n + 1) m = match step m with
      | .ok _ m' => run n m'
      | .error e m' => some (.error e m') :=
  if_neg h

theorem run_watching (n : Nat) (m : Machine x) (bs : Std.ExtTreeSet Nat) :
    run n (m.watching bs) = (run n m).map (StepM.watched bs) := by
  induction n generalizing m with
  | zero =>
    by_cases hhalted : m.state = .halted
    · have hhalted' : (m.watching bs).state = .halted := hhalted
      rw [run_of_halted 0 hhalted, run_of_halted 0 hhalted']
      rfl
    · have hhalted' : (m.watching bs).state ≠ .halted := hhalted
      rw [run_zero hhalted, run_zero hhalted']
      rfl
  | succ n ih =>
    by_cases hhalted : m.state = .halted
    · have hhalted' : (m.watching bs).state = .halted := hhalted
      rw [run_of_halted _ hhalted, run_of_halted _ hhalted']
      rfl
    · have hhalted' : (m.watching bs).state ≠ .halted := hhalted
      rw [run_succ n hhalted, run_succ n hhalted', step_watching]
      cases step m with
      | ok s m' => exact ih m'
      | error e m' => rfl

/-- The other machine steps and runs like the first one, up to its breakpoints. -/
structure RunsLike (m m' : Machine x) : Prop where
  step_eq : step m' = StepM.watched m'.breakpoints (step m)
  run_eq : ∀ n, run n m' = (run n m).map (StepM.watched m'.breakpoints)

theorem runsLike_watching (m : Machine x) (bs : Std.ExtTreeSet Nat) :
    m.RunsLike (m.watching bs) :=
  ⟨step_watching m bs, fun n => run_watching n m bs⟩

theorem runsLike_setBreakpoint (m : Machine x) (address : Nat) :
    m.RunsLike (m.setBreakpoint address).2 :=
  m.runsLike_watching (m.breakpoints.insert (x.wrap address))

theorem runsLike_clearBreakpoint (m : Machine x) (address : Nat) :
    m.RunsLike (m.clearBreakpoint address).2 :=
  m.runsLike_watching (m.breakpoints.erase (x.wrap address))

end Machine

end Hart
