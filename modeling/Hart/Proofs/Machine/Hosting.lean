/-
What a host can make of a machine.

A host drives a machine and looks after it between the driving calls: it starts the machine
over, sets and clears breakpoints, writes registers, puts any memory in the place of the
one there, and makes requests to the allocator (`Machine.Call`).  A machine is `Driven c p`
if it came about so from the program `p` under the configuration `c`.

* `Lasting` — a property that a step and each of the host's own calls keep;
* `Lasting.driven` — such a property holds of every driven machine, if it holds after
  booting.

Design notes: runs, and runs to a breakpoint, are made of steps and one pause, so a property
need not be followed through them again.  A step may fail, and the machine is driven on from
where it failed.
-/
import Mathlib.Logic.Relation
import Hart.Proofs.Machine.Driving

namespace Hart.Machine

variable {x : Xlen} {m m' : Machine x} {r : RunResult x} {P : Machine x → Prop}

/-- One call of a host leads from one machine to the other. -/
inductive Call : Machine x → Machine x → Prop
  | step (m : Machine x) : Call m (after (step m))
  | run {m : Machine x} {r : RunResult x} (hrun : RunsTo m r) : Call m (after r)
  | runToBreakpoint {m : Machine x} {r : RunResult x} (hrun : PausesWith m r) :
      Call m (after r)
  | reset (m : Machine x) : Call m m.reset
  | setBreakpoint (m : Machine x) (address : Nat) : Call m (m.setBreakpoint address).2
  | clearBreakpoint (m : Machine x) (address : Nat) : Call m (m.clearBreakpoint address).2
  | writeRegister (m : Machine x) (r : Register) (v : Word) : Call m (m.writeRegister r v)
  /-- Any writes to memory, and a change of the alignment policy. -/
  | writeMemory (m : Machine x) (memory : Memory x) : Call m (m.modifyMemory fun _ => memory)
  /-- A request to the allocator, or a change of its policy. -/
  | request (m : Machine x) (r : Request) :
      Call m { m with arena := Reply.arena (r.run m.arena) }

/-- The machine came about from the program by calls of a host. -/
def Driven (c : Config) (p : Program) (m : Machine c.general.xlen) : Prop :=
  ∃ m₀, boot c p = .ok m₀ ∧ Relation.ReflTransGen Call m₀ m

/-- Steps and the host's own calls keep the property. -/
structure Lasting (P : Machine x → Prop) : Prop where
  /-- Whether the step succeeds or fails. -/
  step : ∀ m, P m → P (after (step m))
  pause : ∀ m, P m → m.FacesBreakpoint → m.state ≠ .halted → P (m.withState .atBreakpoint)
  reset : ∀ m, P m → P m.reset
  watch : ∀ m bs, P m → P (m.watching bs)
  writeRegister : ∀ m r v, P m → P (m.writeRegister r v)
  writeMemory : ∀ m memory, P m → P (m.modifyMemory fun _ => memory)
  request : ∀ m (r : Request), P m → P { m with arena := Reply.arena (r.run m.arena) }

namespace Lasting

theorem of_step {s : RunState} (hP : Lasting P) (hm : P m) (hstep : Machine.step m = .ok s m') :
    P m' := by
  have hafter := hP.step m hm
  rw [hstep] at hafter
  exact hafter

/-- A run keeps what its steps keep. -/
theorem run (hP : Lasting P) (hm : P m) (hrun : RunsTo m r) : P (after r) := by
  rw [runsTo_iff_drives_step] at hrun
  induction hrun with
  | last hcall hfinal =>
    rw [← hcall]
    exact hP.step _ hm
  | again hcall hgoes hrest ih => exact ih (hP.of_step hm hcall)

theorem steps {k : Nat} (hP : Lasting P) (hm : P m) (hsteps : Steps k m m') : P m' := by
  induction hsteps with
  | zero => exact hm
  | succ hstep hgoes hrest ih => exact ih (hP.of_step hm hstep)

/-- A run to a breakpoint ends as the run does, or it pauses after so many steps. -/
theorem runToBreakpoint (hP : Lasting P) (hm : P m) (hrun : PausesWith m r) : P (after r) := by
  obtain ⟨hfinal, hrun⟩ | ⟨k, m₁, hpause, rfl⟩ := hrun.answers
  · exact hP.run hm hrun
  · exact hP.pause m₁ (hP.steps hm hpause.steps) hpause.breakpoint hpause.live

theorem call (hP : Lasting P) (hm : P m) (hcall : Call m m') : P m' := by
  cases hcall with
  | step => exact hP.step m hm
  | run hrun => exact hP.run hm hrun
  | runToBreakpoint hrun => exact hP.runToBreakpoint hm hrun
  | reset => exact hP.reset m hm
  | setBreakpoint address => exact hP.watch m _ hm
  | clearBreakpoint address => exact hP.watch m _ hm
  | writeRegister q v => exact hP.writeRegister m q v hm
  | writeMemory memory => exact hP.writeMemory m memory hm
  | request q => exact hP.request m q hm

/-- A lasting property that holds after booting holds of every driven machine. -/
theorem driven {c : Config} {p : Program} {P : Machine c.general.xlen → Prop}
    {m : Machine c.general.xlen} (hP : Lasting P) (hboot : ∀ m₀, boot c p = .ok m₀ → P m₀)
    (hm : Driven c p m) : P m := by
  obtain ⟨m₀, hm₀, hcalls⟩ := hm
  induction hcalls with
  | refl => exact hboot m₀ hm₀
  | tail _ hcall ih => exact hP.call ih hcall

end Lasting

end Hart.Machine
