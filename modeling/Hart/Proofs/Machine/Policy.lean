/-
Machines without an alignment policy.

The same program under the same configuration, once with the alignment policy and once
without: the two machines take the same steps until the policy refuses an access.

* `lenient_call`, `lenient_execute`, `lenient_step` — environment calls, instructions and
  steps carry over to the machine without the policy;
* `afterSteps_lenient` — so do the first steps of a run, if none of them is refused;
* `boot_lenient` — booting does not look at the policy;
* `first_difference_misaligned` — the first difference that can be seen between the two runs
  is an access refused under the policy.

Design notes: a run goes on after an error, so the steps of a run are counted whatever they
answer.  The machine without the policy never refuses an access, and this is why a
refusal is always a difference.
-/
import Hart.Proofs.Heap.Policy
import Hart.Proofs.Image.Loading
import Hart.Proofs.Machine.Endings

namespace Hart

variable {x : Xlen} {α β : Type}

/-- The error is the refusal of an access that is not aligned, be it an access of the
program or of the allocator. -/
def RunError.IsMisaligned : RunError → Prop
  | .memory (.misaligned _ _) => True
  | .heap e => e.IsMisaligned
  | _ => False

/-! ### Environment calls -/

/-- The guest, without an alignment policy. -/
def Guest.lenient (p : Guest x) : Guest x :=
  { p with arena := p.arena.lenient }

namespace GuestM

/-- The computation carries over to the guest without an alignment policy. -/
abbrev Lenient (f : GuestM x α) : Prop :=
  CarriesOver RunError.IsMisaligned Guest.lenient f

theorem lenient_request {r : AllocM x α} (hr : AllocM.Lenient r) : Lenient (request r) := by
  have heq (p : Guest x) :
      request r p = embed (fun a => { p with arena := a }) RunError.heap (r p.arena) := by
    rw [request]
    cases r p.arena <;> rfl
  intro p
  rw [heq, heq]
  exact (hr p.arena).embed (fun _ => rfl) fun _ => Iff.rfl

theorem lenient_argument (r : Register) : Lenient (argument r : GuestM x Nat) :=
  carriesOver_get_bind (fun _ => rfl) fun _ => carriesOver_pure _

theorem lenient_count (f : Statistics → Statistics) : Lenient (count f : GuestM x Unit) :=
  carriesOver_modify fun _ => rfl

theorem lenient_writeRegister (r : Register) (v : Word) :
    Lenient (writeRegister r v : GuestM x Unit) :=
  carriesOver_modify fun _ => rfl

end GuestM

namespace Service

open GuestM

theorem lenient_answer (result requested : Nat) :
    Lenient (answer result requested : GuestM x Outcome) := by
  have htell : Lenient (get >>= fun p : Guest x =>
      count (fun s => s.observeActive p.arena.heap.active) >>= fun _ =>
      writeRegister Register.a0 (BitVec.ofNat 64 result) >>= fun _ => pure Outcome.resume) :=
    carriesOver_get_bind (fun _ => rfl) fun _ => (lenient_count _).bind fun _ =>
      (lenient_writeRegister _ _).bind fun _ => carriesOver_pure _
  unfold answer
  exact .ite ((lenient_count _).bind fun _ => htell) htell

theorem lenient_allocator (pc : Word) : Lenient (allocator pc : GuestM x Outcome) := by
  unfold allocator
  refine (lenient_argument _).bind fun operation => (lenient_argument _).bind fun first => ?_
  refine (lenient_argument _).bind fun second => ?_
  split
  · exact (lenient_count _).bind fun _ =>
      (lenient_request (AllocM.lenient_malloc first)).bind fun q => lenient_answer q first
  · exact (lenient_count _).bind fun _ =>
      (lenient_request (AllocM.lenient_allocate first true)).bind fun q => lenient_answer q first
  · exact (lenient_count _).bind fun _ =>
      (lenient_request (AllocM.lenient_realloc first second)).bind fun q => lenient_answer q second
  · exact (lenient_count _).bind fun _ =>
      (lenient_request (AllocM.lenient_free first)).bind fun _ => carriesOver_pure _
  · exact carriesOver_get_bind (fun _ => rfl) fun _ =>
      (lenient_writeRegister _ _).bind fun _ => carriesOver_pure _
  · exact carriesOver_throw id

theorem lenient_call (pc : Word) : Lenient (call pc : GuestM x Outcome) := by
  unfold call
  refine (lenient_argument _).bind fun service => ?_
  split
  · exact carriesOver_get_bind (fun _ => rfl) fun _ =>
      (lenient_request (AllocM.lenient_sbrk _)).bind fun _ =>
        (lenient_writeRegister _ _).bind fun _ => carriesOver_pure _
  · exact carriesOver_pure _
  · exact carriesOver_get_bind (fun _ => rfl) fun _ => carriesOver_pure _
  · exact lenient_allocator pc
  · exact carriesOver_throw id

end Service

/-! ### Instructions and steps -/

/-- The configuration, without an alignment policy. -/
def Config.lenient (c : Config) : Config :=
  { c with memory := { c.memory with aligned := false } }

/-- The machine, without an alignment policy. -/
def Machine.lenient (m : Machine x) : Machine x :=
  { m with
    toGuest := m.toGuest.lenient
    setup := { m.setup with config := m.setup.config.lenient } }

namespace StepM

/-- The computation carries over to the machine without an alignment policy. -/
abbrev Lenient (f : StepM x α) : Prop :=
  CarriesOver RunError.IsMisaligned Machine.lenient f

theorem lenient_onGuest {f : GuestM x α} (hf : GuestM.Lenient f) : Lenient (onGuest f) := by
  have heq (m : Machine x) :
      onGuest f m = embed (fun p => { m with toGuest := p }) id (f m.toGuest) := by
    rw [onGuest]
    cases f m.toGuest <;> rfl
  intro m
  rw [heq, heq]
  exact (hf m.toGuest).embed (fun _ => rfl) fun _ => Iff.rfl

theorem lenient_writeRegister (r : Register) (v : Word) :
    Lenient (writeRegister r v : StepM x Unit) :=
  carriesOver_modify fun _ => rfl

theorem lenient_readRegister (r : Register) : Lenient (readRegister r : StepM x Word) :=
  carriesOver_get_bind (fun _ => rfl) fun _ => carriesOver_pure _

theorem lenient_checkTarget (pc target : Word) : Lenient (checkTarget pc target : StepM x Unit) :=
  .ite (carriesOver_pure _) (carriesOver_throw id)

theorem lenient_jump (pc : Word) (rd : Register) (target : Word) :
    Lenient (jump pc rd target : StepM x Word) :=
  (lenient_checkTarget pc target).bind fun _ => (lenient_writeRegister _ _).bind fun _ =>
    carriesOver_pure _

theorem lenient_load (pc : Word) (width : AccessWidth) (signed : Bool) (rd rs1 : Register)
    (offset : Word) : Lenient (execute pc (.load width signed rd rs1 offset) : StepM x Word) := by
  intro m
  rw [execute_load, execute_load]
  let address := (x.mask (m.registers.read rs1 + offset)).toNat
  have hlenient : m.lenient.memory.load
      (x.mask (m.lenient.registers.read rs1 + offset)).toNat width.bytes =
        .ok (m.memory.splitLoad address width.bytes) :=
    m.memory.load_lenient address width.bytes
  rw [hlenient]
  have hread : Carried RunError.IsMisaligned Machine.lenient
      (.ok (x.mask (pc + 4))
        (m.writeRegister rd
          (loaded width.bytes signed (m.memory.splitLoad address width.bytes)))) _ :=
    carried_ok _ _
  cases hload : m.memory.load address width.bytes with
  | ok raw =>
    rw [m.memory.eq_of_load hload]
    exact hread
  | error e => exact hread.of_error trivial

theorem lenient_store (pc : Word) (width : AccessWidth) (rs1 rs2 : Register) (offset : Word) :
    Lenient (execute pc (.store width rs1 rs2 offset) : StepM x Word) := by
  intro m
  rw [execute_store, execute_store]
  let address := (x.mask (m.registers.read rs1 + offset)).toNat
  let memory := m.memory.splitStore address width.bytes (m.registers.read rs2).toNat
  have hlenient : m.lenient.memory.store
      (x.mask (m.lenient.registers.read rs1 + offset)).toNat width.bytes
      (m.lenient.registers.read rs2).toNat = .ok memory.lenient :=
    m.memory.store_lenient address width.bytes _
  rw [hlenient]
  have hwritten : Carried RunError.IsMisaligned Machine.lenient
      (.ok (x.mask (pc + 4)) (m.modifyMemory fun _ => memory)) _ :=
    carried_ok _ _
  cases hstore : m.memory.store address width.bytes (m.registers.read rs2).toNat with
  | ok memory' =>
    rw [m.memory.eq_of_store hstore]
    exact hwritten
  | error e => exact hwritten.of_error trivial

/-- An instruction reads the alignment policy only where it accesses memory. -/
theorem lenient_execute (pc : Word) (i : Instruction) : Lenient (execute pc i : StepM x Word) := by
  cases i with
  | lui | auipc => exact (lenient_writeRegister _ _).bind fun _ => carriesOver_pure _
  | jal rd offset => exact lenient_jump pc rd _
  | jalr rd rs1 offset => exact (lenient_readRegister _).bind fun _ => lenient_jump pc rd _
  | branch condition rs1 rs2 offset =>
    refine (lenient_readRegister _).bind fun a => (lenient_readRegister _).bind fun b => ?_
    refine .ite ?_ (carriesOver_pure _)
    exact (lenient_onGuest (GuestM.lenient_count _)).bind fun _ =>
      (lenient_checkTarget pc _).bind fun _ => carriesOver_pure _
  | load width signed rd rs1 offset => exact lenient_load pc width signed rd rs1 offset
  | store width rs1 rs2 offset => exact lenient_store pc width rs1 rs2 offset
  | opImm =>
    exact (lenient_readRegister _).bind fun _ => (lenient_writeRegister _ _).bind fun _ =>
      carriesOver_pure _
  | op =>
    exact (lenient_readRegister _).bind fun _ => (lenient_readRegister _).bind fun _ =>
      (lenient_writeRegister _ _).bind fun _ => carriesOver_pure _
  | fence | ebreak => exact carriesOver_pure _
  | ecall =>
    refine (lenient_onGuest (Service.lenient_call pc)).bind fun outcome => ?_
    cases outcome with
    | resume => exact carriesOver_pure _
    | exit code =>
      have hhalt : Lenient (halt code : StepM x Unit) := carriesOver_modify fun _ => rfl
      exact hhalt.bind fun _ => carriesOver_pure _

end StepM

namespace Machine

variable {m : Machine x}

theorem retired_lenient (m : Machine x) (i : Instruction) (next : Word) :
    m.lenient.retired i next = (m.retired i next).lenient := by
  have htext : m.lenient.InText next ↔ m.InText next := Iff.rfl
  simp only [retired, htext]
  show (if m.state = .halted then _ else _) = _
  split
  · rfl
  · split <;> rfl

theorem failed_lenient (m : Machine x) (e : RunError) :
    m.lenient.failed e = (m.failed e).lenient := by
  cases e <;> rfl

/-- How a step ends when its instruction has ended so. -/
def concluded (i : Instruction) :
    EStateM.Result RunError (Machine x) Word → EStateM.Result RunError (Machine x) RunState
  | .ok next n => .ok (n.retired i next).state (n.retired i next)
  | .error e n => .error e (n.failed e)

/-- Without the policy a machine steps as it does under it, unless an access is refused. -/
theorem lenient_step : StepM.Lenient (step : StepM x RunState) := by
  intro m
  -- Without the policy the fetch succeeds, so that is the side on which the cases are told.
  cases m.lenient.outlook with
  | halted hhalted =>
    rw [step_of_halted (m := m) hhalted, step_of_halted hhalted]
    exact carried_ok _ m
  | outside hlive hout =>
    rw [step_of_outside (m := m) hlive hout, step_of_outside hlive hout]
    exact carried_ok _ _
  | spent hlive htext hspent =>
    rw [step_of_spent (m := m) hlive htext hspent, step_of_spent hlive htext hspent]
    exact carried_error _ id
  | unread hlive htext hspent hload =>
    cases (m.memory.load_lenient _ _).symm.trans hload
  | @illegal raw hlive htext hspent hload hword =>
    have hstep : Carried RunError.IsMisaligned Machine.lenient
        (.error (.illegalInstruction m.pc.toNat (BitVec.ofNat 32 raw)) (m.withState .halted))
        (step m.lenient) := by
      rw [step_of_illegal hlive htext hspent hload hword]
      exact carried_error _ id
    obtain hread | ⟨e, hrefused⟩ := m.memory.load_eq_or_error hload
    · rw [step_of_illegal (m := m) hlive htext hspent hread hword]
      exact hstep
    · rw [step_of_unread (m := m) hlive htext hspent hrefused]
      exact hstep.of_error trivial
  | @instruction i hfaces =>
    obtain ⟨q, hq, hspared, hsame⟩ := StepM.lenient_execute m.pc i (m.withState .running)
    have hstep : Carried RunError.IsMisaligned Machine.lenient
        (concluded i q) (step m.lenient) := by
      cases q with
      | ok next n =>
        rw [step_of_executed hfaces hq, retired_lenient]
        exact carried_ok _ _
      | error e n =>
        rw [step_of_failed hfaces hq, failed_lenient]
        exact carried_error _ (hspared e n rfl)
    obtain ⟨raw, hload, hword⟩ := hfaces.fetch
    obtain hread | ⟨e, hrefused⟩ := m.memory.load_eq_or_error hload
    · have hstrict : m.Faces i := ⟨hfaces.running, hfaces.text, hfaces.limit, raw, hread, hword⟩
      obtain heq | ⟨e, n, hrun, he⟩ := hsame
      · rw [step_eq hstrict, heq]
        exact hstep
      · rw [step_of_failed hstrict hrun]
        exact hstep.of_error he
    · have hspent : m.spent? = none := spent?_eq_none.2 hfaces.limit
      rw [step_of_unread (m := m) hfaces.running hfaces.text hspent hrefused]
      exact hstep.of_error trivial

/-! ### Runs -/

/-- The machine after so many steps, whatever each of them answered. -/
def afterSteps (m : Machine x) : Nat → Machine x
  | 0 => m
  | n + 1 => after (step (m.afterSteps n))

/-- What the step after so many others answers. -/
def stepVerdict (m : Machine x) (n : Nat) : Except RunError RunState :=
  verdict (step (m.afterSteps n))

/-- The step was refused an access that is not aligned. -/
def Refused : Except RunError RunState → Prop
  | .ok _ => False
  | .error e => e.IsMisaligned

/-- Two machines that cannot be told apart but by their policies. -/
structure Alike (m u : Machine x) : Prop where
  registers : u.registers = m.registers
  pc : u.pc = m.pc
  state : u.state = m.state
  exitCode : u.exitCode = m.exitCode
  pages : u.memory.pages = m.memory.pages
  heap : u.heap = m.heap
  statistics : u.statistics = m.statistics
  breakpoints : u.breakpoints = m.breakpoints

theorem alike_lenient (m : Machine x) : m.Alike m.lenient :=
  ⟨rfl, rfl, rfl, rfl, rfl, rfl, rfl, rfl⟩

theorem verdict_mapState {ε σ α : Type} (t : σ → σ) (r : EStateM.Result ε σ α) :
    verdict (mapState t r) = verdict r := by
  cases r <;> rfl

theorem after_mapState {ε σ α : Type} (t : σ → σ) (r : EStateM.Result ε σ α) :
    after (mapState t r) = t (after r) := by
  cases r <;> rfl

/-- A machine without the policy stays without it. -/
theorem exists_afterSteps_lenient (m : Machine x) (n : Nat) :
    ∃ u, m.lenient.afterSteps n = Machine.lenient u := by
  induction n with
  | zero => exact ⟨m, rfl⟩
  | succ n ih =>
    obtain ⟨u, hu⟩ := ih
    obtain ⟨q, hq, -⟩ := lenient_step u
    refine ⟨after q, ?_⟩
    rw [afterSteps, hu, hq, after_mapState]

/-- Without the policy nothing is refused. -/
theorem not_refused_lenient (m : Machine x) (n : Nat) : ¬ Refused (m.lenient.stepVerdict n) := by
  obtain ⟨u, hu⟩ := m.exists_afterSteps_lenient n
  rw [stepVerdict, hu]
  cases hstep : step u.lenient with
  | ok s u' => exact id
  | error e u' => exact (lenient_step u).ne_error hstep

theorem step_lenient_of_not_refused (h : ¬ Refused (verdict (step m))) :
    step m.lenient = mapState Machine.lenient (step m) := by
  obtain heq | ⟨e, m', hstep, he⟩ := (lenient_step m).eq_or_error
  · exact heq
  · rw [hstep] at h
    exact absurd he h

/-- As long as nothing was refused, the policy has made no difference. -/
theorem afterSteps_lenient {n : Nat} (h : ∀ k < n, ¬ Refused (m.stepVerdict k)) :
    m.lenient.afterSteps n = (m.afterSteps n).lenient := by
  induction n with
  | zero => rfl
  | succ n ih =>
    have hbefore := ih fun k hk => h k (Nat.lt_succ_of_lt hk)
    rw [afterSteps, hbefore, step_lenient_of_not_refused (h n (Nat.lt_succ_self n)),
      after_mapState, afterSteps]

theorem stepVerdict_lenient {n : Nat} (h : ∀ k ≤ n, ¬ Refused (m.stepVerdict k)) :
    m.lenient.stepVerdict n = m.stepVerdict n := by
  have hbefore := m.afterSteps_lenient (n := n) fun k hk => h k (Nat.le_of_lt hk)
  rw [stepVerdict, hbefore, step_lenient_of_not_refused (h n (Nat.le_refl n)), verdict_mapState,
    stepVerdict]

theorem loadImage_lenient (m : Machine x) : m.lenient.loadImage = m.loadImage.lenient := by
  have hmemory (start start' : Nat) (bytes bytes' : List UInt8) :
      (m.memory.lenient.storeBytes start bytes).storeBytes start' bytes' =
        ((m.memory.storeBytes start bytes).storeBytes start' bytes').lenient := by
    rw [Memory.lenient, Memory.storeBytes_withAligned, Memory.storeBytes_withAligned,
      Memory.lenient]
  unfold loadImage modifyMemory
  dsimp only
  rw [show m.lenient.arena.memory = m.memory.lenient from rfl, hmemory]
  rfl

/-- Booting does not look at the policy. -/
theorem boot_lenient (c : Config) (p : Program) :
    boot c.lenient p = (boot c p).map Machine.lenient := by
  have hcheck : c.lenient.check = c.check := rfl
  have hfault : (Setup.place c.lenient p).fault? = (Setup.place c p).fault? := rfl
  rw [boot_eq, boot_eq, hcheck, hfault]
  cases c.check with
  | error e => rfl
  | ok u =>
    cases (Setup.place c p).fault? with
    | some fault => rfl
    | none => exact congrArg Except.ok (loadImage_lenient (blank c p))

/-- The same program, booted under the policy and without it.  As long as no step is refused
an access that is not aligned, the steps answer alike and leave machines that are alike; and
where the steps first differ, in what they answer or leave, the one under the policy was
refused such an access. -/
theorem first_difference_misaligned {c : Config} {p : Program} {m : Machine c.general.xlen}
    (hboot : boot c p = .ok m) :
    ∃ u : Machine c.general.xlen, boot c.lenient p = .ok u ∧
      (∀ n, (∀ k < n, ¬ Refused (m.stepVerdict k)) →
        (∀ k < n, u.stepVerdict k = m.stepVerdict k) ∧ (m.afterSteps n).Alike (u.afterSteps n)) ∧
      ∀ n, (∀ k < n, u.stepVerdict k = m.stepVerdict k) →
        u.stepVerdict n ≠ m.stepVerdict n ∨ ¬ (m.afterSteps (n + 1)).Alike (u.afterSteps (n + 1)) →
        Refused (m.stepVerdict n) ∧ ¬ Refused (u.stepVerdict n) := by
  refine ⟨m.lenient, ?_, fun n hspared => ⟨fun k hk => ?_, ?_⟩, fun n hsame hdiffers => ?_⟩
  · rw [boot_lenient, hboot]
    rfl
  · exact stepVerdict_lenient fun j hj => hspared j (Nat.lt_of_le_of_lt hj hk)
  · rw [afterSteps_lenient hspared]
    exact alike_lenient _
  · refine ⟨?_, m.not_refused_lenient n⟩
    by_contra hnot
    -- What answers alike was not refused under the policy, as it was not without it.
    have hspared : ∀ k ≤ n, ¬ Refused (m.stepVerdict k) := by
      intro k hk
      obtain hlt | rfl := Nat.lt_or_eq_of_le hk
      · rw [← hsame k hlt]
        exact m.not_refused_lenient k
      · exact hnot
    obtain hanswer | hleft := hdiffers
    · exact hanswer (stepVerdict_lenient hspared)
    · rw [afterSteps_lenient fun k hk => hspared k (Nat.le_of_lt_succ hk)] at hleft
      exact hleft (alike_lenient _)

/-- The instructions `addi t0, zero, 1` and `lw t0, 1(sp)`, under the policy. -/
def strayRun : Config × Program :=
  ({ memory := { aligned := true } }, { text := [0x00100293#32, 0x00112283#32] })

/-- The first step is the same with the policy and without it, and the second is refused only
under the policy. -/
theorem first_difference_strayRun : ∃ m u : Machine .rv32,
    boot strayRun.1 strayRun.2 = .ok m ∧ boot strayRun.1.lenient strayRun.2 = .ok u ∧
      u.stepVerdict 0 = m.stepVerdict 0 ∧ (m.afterSteps 1).Alike (u.afterSteps 1) ∧
      u.stepVerdict 1 = .ok .halted ∧ Refused (m.stepVerdict 1) := by
  obtain ⟨m, hm⟩ : ∃ m : Machine .rv32, boot strayRun.1 strayRun.2 = .ok m := ⟨_, rfl⟩
  obtain ⟨u, hu, hagree, hdiffer⟩ := first_difference_misaligned (c := strayRun.1) hm
  have hrun : ((boot strayRun.1 strayRun.2).toOption.map fun m =>
      (m.stepVerdict 0, m.stepVerdict 1)) =
        some (.ok .running, .error (.memory (.misaligned 0x7FFFFFF1 4))) := by
    decide +kernel
  have hrun' : ((boot strayRun.1.lenient strayRun.2).toOption.map fun u => u.stepVerdict 1) =
      some (.ok .halted) := by
    decide +kernel
  rw [hm] at hrun
  rw [hu] at hrun'
  obtain ⟨hfirst, hsecond⟩ := Prod.mk.inj (Option.some.inj hrun)
  have hsecond' : u.stepVerdict 1 = .ok .halted := Option.some.inj hrun'
  have hspared : ∀ k < 1, ¬ Refused (m.stepVerdict k) := by
    intro k hk
    obtain rfl : k = 0 := Nat.lt_one_iff.1 hk
    rw [show m.stepVerdict 0 = .ok .running from hfirst]
    exact id
  obtain ⟨hanswers, halike⟩ := hagree 1 hspared
  have hne : u.stepVerdict 1 ≠ m.stepVerdict 1 := by
    rw [hsecond', show m.stepVerdict 1 = .error _ from hsecond]
    exact nofun
  exact ⟨m, u, hm, hu, hanswers 0 Nat.one_pos, halike, hsecond',
    (hdiffer 1 hanswers (.inl hne)).1⟩

end Machine

end Hart
