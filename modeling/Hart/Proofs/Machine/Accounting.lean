/-
The counts of a machine add up.

Every retired instruction is counted once in total and once under its class.  A branch is
counted as taken before it is known to lead to an instruction, and under its class only when
it retires; so a machine that has failed at a branch between instructions may have taken one
branch more than it has counted.

* `Statistics.Balanced` — the counts add up;
* `Balanced.record` — they still do after an instruction has retired;
* `Executed.taken` — an instruction takes at most one branch, itself;
* `lasting_accounted` — steps and the calls of the host keep the counts of a machine balanced
  until it fails at such a branch;
* `driven_accounted` — the counts of every driven machine, and the only step that unbalances
  them.

Design notes: a failed machine stays halted without an exit code until it is started over, so
its state tells that its counts may be out of balance.
-/
import Hart.Proofs.Machine.Invariants

namespace Hart

variable {x : Xlen}

namespace Statistics

variable {s s' : Statistics}

/-- Every cycle is counted under a class, and taken branches are counted among branches. -/
structure Balanced (s : Statistics) : Prop where
  cycles_eq : s.cycles = s.classes
  taken_le : s.branchesTaken ≤ s.branch

theorem SameMix.cycles_eq_classes (h : s.SameMix s') (hs : s.cycles = s.classes) :
    s'.cycles = s'.classes := by
  rw [h.cycles, h.classes_eq, hs]

theorem SameMix.branch_eq (h : s.SameMix s') : s'.branch = s.branch :=
  h.ofClass .branch

/-- An instruction that has taken a branch, if it is one, retires. -/
theorem Balanced.record {c : InstructionClass} (h : s.Balanced) (hmix : s.SameMix s')
    (htaken : s'.branchesTaken = s.branchesTaken ∨
      c = .branch ∧ s'.branchesTaken = s.branchesTaken + 1) :
    (s'.record c).Balanced where
  cycles_eq := by rw [record_cycles, record_classes, hmix.cycles_eq_classes h.cycles_eq]
  taken_le := by
    have hle := h.taken_le
    have hbranch := hmix.branch_eq
    obtain hsame | ⟨rfl, hmore⟩ := htaken
    · have hcounted : s'.branch ≤ (s'.record c).branch := by
        cases c with
        | branch => exact Nat.le_succ _
        | alu | load | store | jump | system => exact Nat.le_refl _
      have hkept : (s'.record c).branchesTaken = s'.branchesTaken := by cases c <;> rfl
      omega
    · show s'.branchesTaken ≤ s'.branch + 1
      omega

end Statistics

namespace StepM

variable {pc : Word} {m n : Machine x} {i : Instruction} {e : RunError}

/-- An instruction takes at most one branch, itself. -/
theorem Executed.taken {r : EStateM.Result RunError (Machine x) Word} (h : Executed pc m i r) :
    (after r).statistics.branchesTaken = m.statistics.branchesTaken ∨
      i.category = .branch ∧
        (after r).statistics.branchesTaken = m.statistics.branchesTaken + 1 := by
  cases h with
  | wrote | stored | passed | refused | misjumped => exact .inl rfl
  | branched hi | misbranched hi => exact .inr ⟨hi, rfl⟩
  | called _ hserved => exact .inl hserved.sameInstructions.branchesTaken
  | exited _ hserved => exact .inl hserved.sameInstructions.branchesTaken
  | uncalled hserved => exact .inl hserved.sameInstructions.branchesTaken

/-- An instruction that fails has taken no branch, unless it is one that leads between
instructions. -/
theorem Executed.mistaken (h : Executed pc m i (.error e n)) :
    n.statistics.branchesTaken = m.statistics.branchesTaken ∨
      n.statistics.branchesTaken = m.statistics.branchesTaken + 1 ∧
        ∃ target : Word, target.toNat % instructionSize ≠ 0 ∧
          e = .targetMisaligned pc.toNat target.toNat := by
  cases h with
  | refused | misjumped => exact .inl rfl
  | misbranched _ hbad => exact .inr ⟨rfl, _, hbad, rfl⟩
  | uncalled hserved => exact .inl hserved.sameInstructions.branchesTaken

end StepM

namespace Machine

/-! ### Steps -/

section

variable {m : Machine x}

/-- A step keeps the counts balanced, unless it fails at a branch that leads between
instructions. -/
theorem Stepped.balanced {r : EStateM.Result RunError (Machine x) RunState} (h : m.Stepped r)
    (hm : m.statistics.Balanced) :
    (after r).statistics.Balanced ∨
      ∃ target m', target % instructionSize ≠ 0 ∧
        r = .error (.targetMisaligned m.pc.toNat target) m' ∧
        m'.statistics.branchesTaken = m.statistics.branchesTaken + 1 := by
  cases h with
  | rested | left | stopped | refused | illegal => exact .inl hm
  | @retired i next n _ hexecuted =>
    left
    show (n.retired i next).statistics.Balanced
    rw [statistics_retired]
    exact hm.record hexecuted.sameMix hexecuted.taken
  | @broken i e n _ hexecuted =>
    obtain hsame | ⟨hmore, target, hbad, rfl⟩ := hexecuted.mistaken
    · left
      have hmix : m.statistics.SameMix n.statistics := hexecuted.sameMix
      refine ⟨hmix.cycles_eq_classes hm.cycles_eq, ?_⟩
      show n.statistics.branchesTaken ≤ n.statistics.branch
      rw [hsame, hmix.branch_eq]
      exact hm.taken_le
    · exact .inr ⟨target.toNat, _, hbad, rfl, hmore⟩

/-- The counts are balanced, unless the machine has failed; then it may have taken a branch
that it has not counted. -/
structure Accounted (m : Machine x) : Prop where
  cycles_eq : m.statistics.cycles = m.statistics.classes
  taken_le : m.state ≠ .halted ∨ m.exitCode ≠ none →
    m.statistics.branchesTaken ≤ m.statistics.branch
  taken_le_succ : m.statistics.branchesTaken ≤ m.statistics.branch + 1

theorem accounted_of_balanced (h : m.statistics.Balanced) : m.Accounted :=
  ⟨h.cycles_eq, fun _ => h.taken_le, Nat.le_succ_of_le h.taken_le⟩

theorem Accounted.balanced (h : m.Accounted) (hlive : m.state ≠ .halted) :
    m.statistics.Balanced :=
  ⟨h.cycles_eq, h.taken_le (.inl hlive)⟩

theorem Accounted.step {s : Setup} (h : m.Accounted) (horder : m.InOrder s) :
    (after (step m)).Accounted := by
  by_cases hhalted : m.state = .halted
  · rw [step_of_halted hhalted]
    exact h
  have hm := h.balanced hhalted
  obtain hbalanced | ⟨target, m', -, hstep, hmore⟩ := m.stepped.balanced hm
  · exact accounted_of_balanced hbalanced
  · -- The machine has halted, and not because its program has ended.
    obtain ⟨hspares, -⟩ := (stepped_of_eq hstep).spares
    obtain ⟨-, ⟨⟨f, hmemory⟩, -⟩ | ⟨-, hend⟩⟩ := (stepped_of_eq hstep).fails
    · cases hmemory
    have hcode : m'.exitCode = none := hspares.exitCode.trans (horder.exitCode_eq_none hhalted)
    rw [hstep]
    refine ⟨hspares.mix.cycles_eq_classes hm.cycles_eq, fun hended => ?_, ?_⟩
    · obtain hlive | hexit := hended
      · exact absurd hend hlive
      · exact absurd hcode hexit
    · show m'.statistics.branchesTaken ≤ m'.statistics.branch + 1
      rw [hmore, hspares.mix.branch_eq]
      exact Nat.succ_le_succ hm.taken_le

end

/-! ### Hosts -/

variable {c : Config} {p : Program} {m : Machine c.general.xlen}

/-- Whatever a host does to a machine keeps its account. -/
theorem lasting_accounted (hfits : (Setup.place c p).Fits) :
    Lasting fun m : Machine c.general.xlen => m.InOrder (Setup.place c p) ∧ m.Accounted where
  step m h := ⟨(lasting_inOrder hfits).step m h.1, h.2.step h.1⟩
  pause m h hface hlive :=
    ⟨(lasting_inOrder hfits).pause m h.1 hface hlive, accounted_of_balanced (h.2.balanced hlive)⟩
  reset m h := ⟨(lasting_inOrder hfits).reset m h.1, accounted_of_balanced ⟨rfl, Nat.le_refl 0⟩⟩
  watch m bs h := ⟨(lasting_inOrder hfits).watch m bs h.1, { h.2 with }⟩
  writeRegister m r v h := ⟨(lasting_inOrder hfits).writeRegister m r v h.1, { h.2 with }⟩
  writeMemory m memory h := ⟨(lasting_inOrder hfits).writeMemory m memory h.1, { h.2 with }⟩
  request m r h := ⟨(lasting_inOrder hfits).request m r h.1, { h.2 with }⟩

/-- The counts of every driven machine: its cycles are those of the classes, and it has taken
no more branches than it has counted, unless it has failed; then it may have taken one more.
The step that makes it so has failed at a branch between instructions. -/
theorem driven_accounted (h : Driven c p m) :
    m.statistics.cycles = m.statistics.classes ∧
      m.statistics.branchesTaken ≤ m.statistics.branch + 1 ∧
      (m.state ≠ .halted ∨ m.exitCode ≠ none →
        m.statistics.branchesTaken ≤ m.statistics.branch) ∧
      (m.state ≠ .halted →
        (after (step m)).statistics.branch < (after (step m)).statistics.branchesTaken →
        ∃ target m', target % instructionSize ≠ 0 ∧
          step m = .error (.targetMisaligned m.pc.toNat target) m') := by
  have hstart (m₀ : Machine c.general.xlen) (hm₀ : boot c p = .ok m₀) :
      m₀.InOrder (Setup.place c p) ∧ m₀.Accounted := by
    refine ⟨inOrder_boot hm₀, accounted_of_balanced ?_⟩
    rw [statistics_boot hm₀]
    exact ⟨rfl, Nat.le_refl 0⟩
  obtain ⟨-, haccounted⟩ := (lasting_accounted h.fits).driven hstart h
  refine ⟨haccounted.cycles_eq, haccounted.taken_le_succ, haccounted.taken_le,
    fun hlive hmore => ?_⟩
  obtain hbalanced | ⟨target, m', hbad, hstep, -⟩ :=
    m.stepped.balanced (haccounted.balanced hlive)
  · exact absurd hbalanced.taken_le (Nat.not_le_of_lt hmore)
  · exact ⟨target, m', hbad, hstep⟩

/-- The instruction `beq zero, zero, 2`, which leads between instructions. -/
def misled : Program := { text := [0x00000163#32, 0x00000013#32] }

/-- The branch is taken, and never counted. -/
theorem driven_accounted_misled : ∃ m : Machine .rv32,
    boot {} misled = .ok m ∧
      (∃ target m', target % instructionSize ≠ 0 ∧
        step m = .error (.targetMisaligned m.pc.toNat target) m') ∧
      (after (step m)).statistics.branchesTaken = 1 ∧ (after (step m)).statistics.branch = 0 ∧
      (after (step m)).statistics.cycles = (after (step m)).statistics.classes := by
  obtain ⟨m, hm⟩ : ∃ m : Machine .rv32, boot {} misled = .ok m := ⟨_, rfl⟩
  have hcounts : ((boot {} misled).toOption.map fun m =>
      (m.state, (after (step m)).statistics.branchesTaken, (after (step m)).statistics.branch)) =
        some (.ready, 1, 0) := by
    decide +kernel
  rw [hm] at hcounts
  obtain ⟨hstate, htaken, hbranch⟩ :
      m.state = .ready ∧ (after (step m)).statistics.branchesTaken = 1 ∧
        (after (step m)).statistics.branch = 0 := by
    simpa [Except.toOption] using hcounts
  have hfails := driven_accounted (c := {}) (p := misled) ⟨m, hm, .refl⟩
  have hafter := driven_accounted (c := {}) (p := misled) ⟨m, hm, .single (.step m)⟩
  have hlive : m.state ≠ .halted := by
    rw [hstate]
    decide
  have hmore : (after (step m)).statistics.branch < (after (step m)).statistics.branchesTaken := by
    rw [htaken, hbranch]
    exact Nat.one_pos
  exact ⟨m, hm, hfails.2.2.2 hlive hmore, htaken, hbranch, hafter.1⟩

end Machine

end Hart
