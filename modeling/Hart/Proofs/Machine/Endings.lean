/-
How a step ends.

`StepM.Executed pc m i r` lists the ways in which the instruction `i` at `pc` can end on the
machine `m`, and `Machine.Stepped m r` those of a whole step.  What a step keeps, and what a
failed step leaves behind, is read off these lists.

* `StepM.executed` — every instruction ends in one of the ways of `Executed`;
* `Machine.stepped` — every step ends in one of the ways of `Stepped`;
* `Machine.step_reframe` — a step neither reads nor changes the breakpoints, nor anything
  of what the machine was built from but where its text is and how many steps it may take.

Design notes: the lists say what an instruction may do to the machine, not which
instruction it was.  Only branches are told apart, because they are counted before they
are carried out.
-/
import Hart.Proofs.Machine.Service
import Hart.Proofs.Machine.Step

namespace Hart

variable {x : Xlen}

/-! ### Instructions -/

theorem Xlen.toNat_mask_lt (x : Xlen) (v : Word) : (x.mask v).toNat < x.space := by
  rw [toNat_mask]
  exact x.wrap_lt _

/-- The machine with one more branch counted as taken. -/
def Machine.countTaken (m : Machine x) : Machine x :=
  { m with statistics := { m.statistics with branchesTaken := m.statistics.branchesTaken + 1 } }

/-- The machine with another setup and other breakpoints. -/
def Machine.reframe (f : Setup → Setup) (g : Std.ExtTreeSet Nat → Std.ExtTreeSet Nat)
    (m : Machine x) : Machine x :=
  { m with setup := f m.setup, breakpoints := g m.breakpoints }

namespace StepM

variable {m : Machine x} {pc next : Word} {i : Instruction}

theorem execute_ecall (m : Machine x) (pc : Word) :
    execute pc .ecall m = match Service.call pc m.toGuest with
      | .ok .resume p => .ok (x.mask (pc + 4)) { m with toGuest := p }
      | .ok (.exit code) p =>
        .ok (x.mask (pc + 4)) { m with toGuest := p, state := .halted, exitCode := some code }
      | .error e p => .error e { m with toGuest := p } := by
  show EStateM.bind (onGuest (Service.call pc)) _ m = _
  rw [EStateM.bind, onGuest]
  cases Service.call pc m.toGuest with
  | ok outcome p => cases outcome <;> rfl
  | error e p => rfl

/-- An outcome, with the machine in it changed. -/
def mapMachine {α : Type} (t : Machine x → Machine x) :
    EStateM.Result RunError (Machine x) α → EStateM.Result RunError (Machine x) α
  | .ok v m => .ok v (t m)
  | .error e m => .error e (t m)

section

variable (f : Setup → Setup) (g : Std.ExtTreeSet Nat → Std.ExtTreeSet Nat)

theorem jump_reframe (pc : Word) (rd : Register) (target : Word) (m : Machine x) :
    jump pc rd target (m.reframe f g) = mapMachine (·.reframe f g) (jump pc rd target m) := by
  rw [jump_eq, jump_eq]
  split <;> rfl

/-- An instruction neither reads nor changes what is around its guest. -/
theorem execute_reframe (pc : Word) (i : Instruction) (m : Machine x) :
    execute pc i (m.reframe f g) = mapMachine (·.reframe f g) (execute pc i m) := by
  have hguest : (m.reframe f g).toGuest = m.toGuest := rfl
  have hmemory : (m.reframe f g).memory = m.memory := rfl
  cases i with
  | lui | auipc | opImm | op | fence | ebreak => rfl
  | jal rd offset => exact jump_reframe f g pc rd _ m
  | jalr rd rs1 offset => exact jump_reframe f g pc rd _ m
  | branch condition rs1 rs2 offset =>
    rw [execute_branch, execute_branch, hguest]
    split
    · dsimp only
      split <;> rfl
    · rfl
  | load width signed rd rs1 offset =>
    rw [execute_load, execute_load, hmemory, hguest]
    cases m.memory.load (x.mask (m.registers.read rs1 + offset)).toNat width.bytes <;> rfl
  | store width rs1 rs2 offset =>
    rw [execute_store, execute_store, hmemory, hguest]
    cases m.memory.store (x.mask (m.registers.read rs1 + offset)).toNat width.bytes
      (m.registers.read rs2).toNat <;> rfl
  | ecall =>
    rw [execute_ecall, execute_ecall, hguest]
    cases Service.call pc m.toGuest with
    | ok outcome p => cases outcome <;> rfl
    | error e p => rfl

end

/-- The address may come after `pc`: it lies in the address space, and between
instructions only if `pc` does. -/
structure Follows (x : Xlen) (pc next : Word) : Prop where
  lt : next.toNat < x.space
  aligned : pc.toNat % instructionSize = 0 → next.toNat % instructionSize = 0

theorem follows_next (x : Xlen) (pc : Word) : Follows x pc (x.mask (pc + 4)) := by
  refine ⟨x.toNat_mask_lt _, fun haligned => ?_⟩
  have hfour : (4 : Word).toNat = 4 := rfl
  -- The size of the address space is a multiple of four.
  rw [Xlen.toNat_mask, BitVec.toNat_add, hfour]
  cases x <;> simp only [Xlen.wrap, Xlen.space, instructionSize] at * <;> omega

theorem follows_target {target : Word} (hlt : target.toNat < x.space)
    (haligned : target.toNat % instructionSize = 0) : Follows x pc target :=
  ⟨hlt, fun _ => haligned⟩

/-- The ways in which the instruction at `pc` can end. -/
inductive Executed (pc : Word) (m : Machine x) (i : Instruction) :
    EStateM.Result RunError (Machine x) Word → Prop
  /-- A register was written. -/
  | wrote {rd : Register} {v next : Word} (hnext : Follows x pc next) :
      Executed pc m i (.ok next (m.writeRegister rd v))
  /-- Memory was written. -/
  | stored {memory : Memory x} {next : Word} (hnext : Follows x pc next) :
      Executed pc m i (.ok next (m.modifyMemory fun _ => memory))
  /-- Nothing was written. -/
  | passed {next : Word} (hnext : Follows x pc next) : Executed pc m i (.ok next m)
  /-- A branch was taken. -/
  | branched {next : Word} (hi : i.category = .branch) (hnext : Follows x pc next) :
      Executed pc m i (.ok next m.countTaken)
  /-- An environment call was served. -/
  | called {p : Guest x} {next : Word} (hnext : Follows x pc next)
      (hserved : Service.Served pc m.toGuest (.ok .resume p)) :
      Executed pc m i (.ok next { m with toGuest := p })
  /-- The program ended itself. -/
  | exited {p : Guest x} {code : Int} {next : Word} (hnext : Follows x pc next)
      (hserved : Service.Served pc m.toGuest (.ok (.exit code) p)) :
      Executed pc m i
        (.ok next { m with toGuest := p, state := .halted, exitCode := some code })
  /-- A load or store was refused. -/
  | refused (e : MemoryError) : Executed pc m i (.error (.memory e) m)
  /-- A jump led between instructions. -/
  | misjumped {target : Word} (hbad : target.toNat % instructionSize ≠ 0) :
      Executed pc m i (.error (.targetMisaligned pc.toNat target.toNat) m)
  /-- A branch that was taken led between instructions. -/
  | misbranched {target : Word} (hi : i.category = .branch)
      (hbad : target.toNat % instructionSize ≠ 0) :
      Executed pc m i (.error (.targetMisaligned pc.toNat target.toNat) m.countTaken)
  /-- An environment call failed. -/
  | uncalled {p : Guest x} {e : RunError}
      (hserved : Service.Served pc m.toGuest (.error e p)) :
      Executed pc m i (.error e { m with toGuest := p })

variable {n : Machine x}

theorem Executed.follows (h : Executed pc m i (.ok next n)) : Follows x pc next := by
  cases h with
  | wrote hnext | stored hnext | passed hnext | branched _ hnext | called hnext | exited hnext =>
    exact hnext

theorem Executed.setup_eq {r : EStateM.Result RunError (Machine x) Word}
    (h : Executed pc m i r) : (after r).setup = m.setup := by
  cases h <;> rfl

/-- Only the program itself changes the state of its machine, by ending. -/
theorem Executed.state (h : Executed pc m i (.ok next n)) :
    n.state = m.state ∧ n.exitCode = m.exitCode ∨ n.state = .halted := by
  cases h with
  | wrote | stored | passed | branched | called => exact .inl ⟨rfl, rfl⟩
  | exited => exact .inr rfl

theorem executed_jump (m : Machine x) (rd : Register) {target : Word}
    (hlt : target.toNat < x.space) : Executed pc m i (jump pc rd target m) := by
  rw [jump_eq]
  by_cases haligned : target.toNat % instructionSize = 0
  · rw [if_pos haligned]
    exact .wrote (follows_target hlt haligned)
  · rw [if_neg haligned]
    exact .misjumped haligned

theorem executed_branch (m : Machine x) (condition : BranchCondition) (rs1 rs2 : Register)
    (offset : Word) :
    Executed pc m (.branch condition rs1 rs2 offset)
      (execute pc (.branch condition rs1 rs2 offset) m) := by
  rw [execute_branch]
  by_cases htaken : condition.holds x (m.registers.read rs1) (m.registers.read rs2) = true
  · rw [if_pos htaken]
    dsimp only
    by_cases haligned : (x.mask (pc + offset)).toNat % instructionSize = 0
    · rw [if_pos haligned]
      exact .branched rfl (follows_target (x.toNat_mask_lt _) haligned)
    · rw [if_neg haligned]
      exact .misbranched rfl haligned
  · rw [if_neg htaken]
    exact .passed (follows_next x pc)

/-- Every instruction ends in one of the ways of `Executed`. -/
theorem executed (pc : Word) (m : Machine x) (i : Instruction) :
    Executed pc m i (execute pc i m) := by
  have hnext := follows_next x pc
  cases i with
  | lui | auipc | opImm | op => exact .wrote hnext
  | jal rd offset => exact executed_jump m rd (x.toNat_mask_lt _)
  | jalr rd rs1 offset =>
    have hle : (x.mask (m.registers.read rs1 + offset) &&& ~~~1#64).toNat ≤ _ := Nat.and_le_left
    exact executed_jump m rd (Nat.lt_of_le_of_lt hle (x.toNat_mask_lt _))
  | branch condition rs1 rs2 offset => exact executed_branch m condition rs1 rs2 offset
  | load width signed rd rs1 offset =>
    rw [execute_load]
    cases m.memory.load (x.mask (m.registers.read rs1 + offset)).toNat width.bytes with
    | ok raw => exact .wrote hnext
    | error e => exact .refused e
  | store width rs1 rs2 offset =>
    rw [execute_store]
    cases m.memory.store (x.mask (m.registers.read rs1 + offset)).toNat width.bytes
        (m.registers.read rs2).toNat with
    | ok memory => exact .stored hnext
    | error e => exact .refused e
  | fence | ebreak => exact .passed hnext
  | ecall =>
    have hserved := Service.served_call pc m.toGuest
    rw [execute_ecall]
    cases hcall : Service.call pc m.toGuest with
    | ok outcome p =>
      rw [hcall] at hserved
      cases outcome with
      | resume => exact .called hnext hserved
      | exit code => exact .exited hnext hserved
    | error e p =>
      rw [hcall] at hserved
      exact .uncalled hserved

end StepM

/-! ### Steps -/

namespace Machine

variable {m : Machine x} {i : Instruction}

section

variable {f : Setup → Setup} {g : Std.ExtTreeSet Nat → Std.ExtTreeSet Nat}
  (htext : ∀ s, (f s).textStart = s.textStart ∧ (f s).textStop = s.textStop)

include htext

theorem inText_reframe (m : Machine x) (address : Word) :
    (m.reframe f g).InText address ↔ m.InText address := by
  obtain ⟨hstart, hstop⟩ := htext m.setup
  show (f m.setup).textStart ≤ address.toNat ∧ address.toNat < (f m.setup).textStop ↔ _
  rw [hstart, hstop]
  rfl

theorem retired_reframe (m : Machine x) (i : Instruction) (next : Word) :
    (m.reframe f g).retired i next = (m.retired i next).reframe f g := by
  simp only [retired, inText_reframe htext]
  show (if m.state = .halted then _ else _) = _
  split
  · rfl
  · split <;> rfl

/-- With text where it was and as many steps left, a step does not depend on what is around
the guest. -/
theorem step_reframe
    (hspent : m.state ≠ .halted → m.InText m.pc → (m.reframe f g).spent? = m.spent?) :
    step (m.reframe f g) = StepM.mapMachine (·.reframe f g) (step m) := by
  have hin := inText_reframe (g := g) htext m m.pc
  cases m.outlook with
  | halted hhalted =>
    have hhalted' : (m.reframe f g).state = .halted := hhalted
    rw [step_of_halted hhalted, step_of_halted hhalted']
    rfl
  | outside hlive hout =>
    have hlive' : (m.reframe f g).state ≠ .halted := hlive
    rw [step_of_outside hlive hout, step_of_outside hlive' (mt hin.1 hout)]
    rfl
  | spent hlive htext' hlimit =>
    have hlive' : (m.reframe f g).state ≠ .halted := hlive
    have hlimit' := (hspent hlive htext').trans hlimit
    rw [step_of_spent hlive htext' hlimit, step_of_spent hlive' (hin.2 htext') hlimit']
    rfl
  | unread hlive htext' hfree hload =>
    have hlive' : (m.reframe f g).state ≠ .halted := hlive
    have hfree' := (hspent hlive htext').trans hfree
    rw [step_of_unread hlive htext' hfree hload, step_of_unread hlive' (hin.2 htext') hfree' hload]
    rfl
  | illegal hlive htext' hfree hload hword =>
    have hlive' : (m.reframe f g).state ≠ .halted := hlive
    have hfree' := (hspent hlive htext').trans hfree
    rw [step_of_illegal hlive htext' hfree hload hword,
      step_of_illegal hlive' (hin.2 htext') hfree' hload hword]
    rfl
  | @instruction i hfaces =>
    have hfree' := (hspent hfaces.running hfaces.text).trans (spent?_eq_none.2 hfaces.limit)
    have hfaces' : (m.reframe f g).Faces i :=
      ⟨hfaces.running, hin.2 hfaces.text, spent?_eq_none.1 hfree', hfaces.fetch⟩
    have hexecute := StepM.execute_reframe f g m.pc i (m.withState .running)
    cases hrun : StepM.execute m.pc i (m.withState .running) with
    | ok next n =>
      rw [hrun] at hexecute
      rw [step_of_executed hfaces hrun, step_of_executed hfaces' hexecute, retired_reframe htext]
      rfl
    | error e n =>
      rw [hrun] at hexecute
      rw [step_of_failed hfaces hrun, step_of_failed hfaces' hexecute]
      cases e <;> rfl

end

/-- The ways in which a step can end. -/
inductive Stepped (m : Machine x) : EStateM.Result RunError (Machine x) RunState → Prop
  /-- The machine had halted. -/
  | rested (hhalted : m.state = .halted) : Stepped m (.ok .halted m)
  /-- The program had run off its text. -/
  | left (hlive : m.state ≠ .halted) (hout : ¬ m.InText m.pc) :
      Stepped m (.ok .halted { m with state := .halted, exitCode := some 0 })
  /-- The machine had executed as many instructions as it may. -/
  | stopped {limit : Nat} (hlive : m.state ≠ .halted) (htext : m.InText m.pc)
      (hspent : m.spent? = some limit) :
      Stepped m (.error (.stepLimit limit m.pc.toNat) (m.withState .halted))
  /-- A fetch, load or store was refused. -/
  | refused (hlive : m.state ≠ .halted) (htext : m.InText m.pc) (e : MemoryError) :
      Stepped m (.error (.memory e) (m.withState .running))
  /-- The word that was fetched is no instruction. -/
  | illegal (hlive : m.state ≠ .halted) (htext : m.InText m.pc) (word : BitVec 32) :
      Stepped m (.error (.illegalInstruction m.pc.toNat word) (m.withState .halted))
  /-- An instruction was executed and retired. -/
  | retired {i : Instruction} {next : Word} {n : Machine x} (hfaces : m.Faces i)
      (hexecuted : StepM.Executed m.pc (m.withState .running) i (.ok next n)) :
      Stepped m (.ok (n.retired i next).state (n.retired i next))
  /-- An instruction failed for good. -/
  | broken {i : Instruction} {e : RunError} {n : Machine x} (hfaces : m.Faces i)
      (hexecuted : StepM.Executed m.pc (m.withState .running) i (.error e n))
      (hfatal : ∀ f, e ≠ .memory f) : Stepped m (.error e (n.withState .halted))

theorem stepped_of_faces (h : m.Faces i) : Stepped m (step m) := by
  have hexecuted := StepM.executed m.pc (m.withState .running) i
  cases hrun : StepM.execute m.pc i (m.withState .running) with
  | ok next n =>
    rw [hrun] at hexecuted
    rw [step_of_executed h hrun]
    exact .retired h hexecuted
  | error e n =>
    rw [hrun] at hexecuted
    rw [step_of_failed h hrun]
    cases e with
    | memory f =>
      -- Only a refused access fails so, and it has changed nothing.
      cases hexecuted with
      | refused => exact .refused h.running h.text f
      | uncalled hserved => cases hserved
    | heap | illegalInstruction | targetMisaligned | unknownCall | stepLimit =>
      exact .broken h hexecuted nofun

/-- Every step ends in one of the ways of `Stepped`. -/
theorem stepped (m : Machine x) : Stepped m (step m) := by
  cases m.outlook with
  | halted hhalted =>
    rw [step_of_halted hhalted]
    exact .rested hhalted
  | outside hlive hout =>
    rw [step_of_outside hlive hout]
    exact .left hlive hout
  | spent hlive htext hspent =>
    rw [step_of_spent hlive htext hspent]
    exact .stopped hlive htext hspent
  | unread hlive htext hspent hload =>
    rw [step_of_unread hlive htext hspent hload]
    exact .refused hlive htext _
  | illegal hlive htext hspent hload hword =>
    rw [step_of_illegal hlive htext hspent hload hword]
    exact .illegal hlive htext _
  | instruction hfaces => exact stepped_of_faces hfaces

theorem stepped_of_eq {r : EStateM.Result RunError (Machine x) RunState} (h : step m = r) :
    m.Stepped r :=
  h ▸ m.stepped

/-- A step does not change what the machine was built from. -/
theorem Stepped.setup_eq {r : EStateM.Result RunError (Machine x) RunState} (h : m.Stepped r) :
    (after r).setup = m.setup := by
  cases h with
  | rested | left | stopped | refused | illegal => rfl
  | @retired i next n _ hexecuted => exact (n.setup_retired i next).trans hexecuted.setup_eq
  | broken _ hexecuted => exact hexecuted.setup_eq

end Machine

end Hart
