/-
Running a machine.

* `Machine.run` — steps until the program has ended;
* `Machine.runToBreakpoint` — steps until the program has ended or stands in
  front of a breakpoint.

Design notes: a program may run forever, so both take the number of steps that
they may use and answer with nothing when it does not suffice.  More steps never
change an answer.  From a breakpoint the paused instruction is executed first, so
that repeated runs go from one breakpoint to the next.
-/
import Hart.Machine.Step

namespace Hart.Machine

variable {x : Xlen}

/-- The result of a run: a state or an error, with the machine. -/
abbrev RunResult (x : Xlen) := EStateM.Result RunError (Machine x) RunState

/-- Steps until the machine has halted or a step fails. -/
def run (steps : Nat) (m : Machine x) : Option (RunResult x) :=
  if m.state = .halted then some (.ok .halted m)
  else
    match steps with
    | 0 => none
    | steps + 1 =>
      match step m with
      | .ok _ m => m.run steps
      | .error e m => some (.error e m)

/-- Steps until the machine has halted, a step fails, or the next instruction is
a breakpoint. -/
def runUntilBreakpoint (steps : Nat) (m : Machine x) : Option (RunResult x) :=
  if m.state = .halted then some (.ok .halted m)
  else if m.InText m.pc ∧ m.IsBreakpoint m.pc then
    some (.ok .atBreakpoint { m with state := .atBreakpoint })
  else
    match steps with
    | 0 => none
    | steps + 1 =>
      match step m with
      | .ok _ m => m.runUntilBreakpoint steps
      | .error e m => some (.error e m)

/-- Runs to the next breakpoint, past the one in front of which the machine
stands. -/
def runToBreakpoint (steps : Nat) (m : Machine x) : Option (RunResult x) :=
  if m.state = .atBreakpoint then
    match step m with
    | .ok _ m => m.runUntilBreakpoint steps
    | .error e m => some (.error e m)
  else m.runUntilBreakpoint steps

end Hart.Machine
