/-
A step takes one cycle and leaves no pause behind.

Only retiring counts an instruction.

* `Executed.sameMix` — an instruction counts none, itself included, until it retires;
* `cycles_of_step` — a step in text that succeeds counts one cycle;
* `Stepped.cycles` — no step counts more, and one that executes nothing counts none;
* `Stepped.unpaused` — after any step the machine runs or has halted.
-/
import Hart.Proofs.Machine.Watching

namespace Hart

variable {x : Xlen}

/-- An instruction counts nothing that retiring counts, even if it fails. -/
theorem StepM.Executed.sameMix {pc : Word} {m : Machine x} {i : Instruction}
    {r : EStateM.Result RunError (Machine x) Word} (h : StepM.Executed pc m i r) :
    m.statistics.SameMix (after r).statistics := by
  cases h with
  | wrote | stored | passed | refused | misjumped => exact .refl _
  | branched | misbranched => exact ⟨rfl, fun c => by cases c <;> rfl⟩
  | called _ hserved => exact hserved.sameInstructions.toSameMix
  | exited _ hserved => exact hserved.sameInstructions.toSameMix
  | uncalled hserved => exact hserved.sameInstructions.toSameMix

namespace Machine

variable {m m' : Machine x} {s : RunState} {r : EStateM.Result RunError (Machine x) RunState}

theorem statistics_retired (m : Machine x) (i : Instruction) (next : Word) :
    (m.retired i next).statistics = m.statistics.record i.category := by
  simp only [retired, apply_ite Machine.toGuest, ite_self]

/-- Retiring an instruction keeps the state unless the program ends. -/
theorem state_retired (m : Machine x) (i : Instruction) (next : Word) :
    (m.retired i next).state = m.state ∨ (m.retired i next).state = .halted := by
  rw [retired]
  by_cases hhalted : m.state = .halted
  · rw [if_pos hhalted]
    exact .inl rfl
  · rw [if_neg hhalted]
    by_cases htext : m.InText next
    · rw [if_pos htext]
      exact .inl rfl
    · rw [if_neg htext]
      exact .inr rfl

/-! ### Cycles -/

/-- A step that succeeds answers with the state of the machine. -/
theorem state_of_step (h : step m = .ok s m') : m'.state = s := by
  cases stepped_of_eq h with
  | rested hhalted => exact hhalted
  | left | retired => rfl

/-- Outside of text a step ends the program. -/
theorem inText_of_step (h : step m = .ok s m') (hs : s ≠ .halted) : m.InText m.pc := by
  cases stepped_of_eq h with
  | rested | left => exact absurd rfl hs
  | retired hfaces => exact hfaces.text

/-- An instruction that is executed and retired takes one cycle. -/
theorem cycles_retired {pc next : Word} {i : Instruction} {n : Machine x}
    (h : StepM.Executed pc (m.withState .running) i (.ok next n)) :
    (n.retired i next).statistics.cycles = m.statistics.cycles + 1 := by
  have hcycles : n.statistics.cycles = m.statistics.cycles := h.sameMix.cycles
  rw [statistics_retired, Statistics.record_cycles, hcycles]

/-- A step in text that succeeds counts one cycle. -/
theorem cycles_of_step (hlive : m.state ≠ .halted) (htext : m.InText m.pc)
    (h : step m = .ok s m') : m'.statistics.cycles = m.statistics.cycles + 1 := by
  cases stepped_of_eq h with
  | rested hhalted => exact absurd hhalted hlive
  | left _ hout => exact absurd htext hout
  | retired _ hexecuted => exact cycles_retired hexecuted

/-- A step counts one cycle if it executes an instruction, and none if it does not. -/
theorem Stepped.cycles (h : m.Stepped r) :
    (after r).statistics.cycles = m.statistics.cycles ∨
      (∃ i, m.Faces i) ∧ (after r).statistics.cycles = m.statistics.cycles + 1 := by
  cases h with
  | rested | left | stopped | refused | illegal => exact .inl rfl
  | retired hfaces hexecuted => exact .inr ⟨⟨_, hfaces⟩, cycles_retired hexecuted⟩
  | broken _ hexecuted => exact .inl hexecuted.sameMix.cycles

theorem Stepped.cycles_mono (h : m.Stepped r) :
    m.statistics.cycles ≤ (after r).statistics.cycles := by
  obtain hsame | ⟨-, hmore⟩ := h.cycles
  · exact Nat.le_of_eq hsame.symm
  · exact Nat.le_of_lt (Nat.lt_of_lt_of_eq (Nat.lt_succ_self _) hmore.symm)

theorem Stepped.cycles_le_succ (h : m.Stepped r) :
    (after r).statistics.cycles ≤ m.statistics.cycles + 1 := by
  obtain hsame | ⟨-, hmore⟩ := h.cycles
  · exact Nat.le_succ_of_le (Nat.le_of_eq hsame)
  · exact Nat.le_of_eq hmore

/-! ### Pauses -/

/-- Running or halted. -/
def Unpaused (m : Machine x) : Prop :=
  m.state = .running ∨ m.state = .halted

theorem Unpaused.ne_atBreakpoint (h : m.Unpaused) : m.state ≠ .atBreakpoint := by
  obtain h | h := h
  · rw [h]
    exact nofun
  · rw [h]
    exact nofun

/-- No step leaves a pause behind, whether it succeeds or fails. -/
theorem Stepped.unpaused (h : m.Stepped r) : (after r).Unpaused := by
  cases h with
  | rested hhalted => exact .inr hhalted
  | left | stopped | illegal | broken => exact .inr rfl
  | refused => exact .inl rfl
  | @retired i next n _ hexecuted =>
    obtain hsame | hend := n.state_retired i next
    · obtain ⟨hrunning, -⟩ | hhalted := hexecuted.state
      · exact .inl (hsame.trans hrunning)
      · exact .inr (hsame.trans hhalted)
    · exact .inr hend

end Machine

end Hart
