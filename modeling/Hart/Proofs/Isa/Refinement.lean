/-
A machine is a hart of its width.

`Machine.hart` reads a machine as a state of the instruction set, whatever lies above
the words in its slots.

* `Machine.execute_agrees` — executing an instruction, by the cases of the set;
* `Machine.step_refines` — a step that succeeds is the step of the hart, and leaves
  everything around the hart alone.

Design notes: a machine is `Canonical` when nothing lies above the words.  Steps keep
it so, and then the words are all that the slots hold.
-/
import Mathlib.Logic.Relation
import Hart.Proofs.Image.Loading
import Hart.Proofs.Isa.Decoding
import Hart.Proofs.Isa.Memory
import Hart.Proofs.Machine.Step

namespace Hart

namespace Machine

variable {x : Xlen} {m m' : Machine x}

/-- The hart that a machine is. -/
def hart (m : Machine x) : Isa.State x where
  reg r := x.word (m.registers.read r)
  pc := x.word m.pc
  mem := m.memory.view

/-- Every slot holds its word, zero-extended. -/
structure Canonical (m : Machine x) : Prop where
  register : ∀ r, m.registers.read r = (m.hart.reg r).setWidth 64
  pc : m.pc = m.hart.pc.setWidth 64

theorem canonical_iff : m.Canonical ↔
    (∀ r, x.mask (m.registers.read r) = m.registers.read r) ∧ x.mask m.pc = m.pc := by
  constructor
  · rintro ⟨hregister, hpc⟩
    exact ⟨fun r => (Xlen.mask_eq _).trans (hregister r).symm, (Xlen.mask_eq _).trans hpc.symm⟩
  · rintro ⟨hregister, hpc⟩
    exact ⟨fun r => (hregister r).symm.trans (Xlen.mask_eq _), hpc.symm.trans (Xlen.mask_eq _)⟩

/-- What is around the hart is the same in both machines. -/
structure Surrounds (m m' : Machine x) : Prop where
  heap : m'.heap = m.heap
  aligned : m'.memory.aligned = m.memory.aligned
  setup : m'.setup = m.setup
  breakpoints : m'.breakpoints = m.breakpoints

theorem Surrounds.refl (m : Machine x) : m.Surrounds m :=
  ⟨rfl, rfl, rfl, rfl⟩

theorem hart_writeRegister (m : Machine x) (r : Register) (v : Word) :
    (m.writeRegister r v).hart = m.hart.set r (x.word v) := by
  refine Isa.State.ext (funext fun q => ?_) rfl rfl
  show x.word ((m.registers.write r v).read q) =
    if q = r ∧ r ≠ 0 then x.word v else x.word (m.registers.read q)
  rw [RegisterFile.read_write]
  -- Neither the machine nor its hart writes register 0.
  by_cases hq : r = q ∧ q ≠ Register.zero
  · have hset : q = r ∧ r ≠ 0 := ⟨hq.1.symm, hq.1 ▸ hq.2⟩
    rw [if_pos hq, if_pos hset, Xlen.word_mask]
  · have hset : ¬ (q = r ∧ r ≠ 0) := fun h => hq ⟨h.1.symm, h.1 ▸ h.2⟩
    rw [if_neg hq, if_neg hset]

/-- The outcome of an execution is that of the hart. -/
structure Agrees (m : Machine x) (j : Isa.Instr) (next : Word) (m' : Machine x) : Prop where
  exec : m.hart.exec? j = some { m'.hart with pc := x.word next }
  next_mask : x.mask next = next
  slot : ∀ r, m'.registers.read r = m.registers.read r ∨
    x.mask (m'.registers.read r) = m'.registers.read r
  surrounds : m.Surrounds m'
  state : m'.state = m.state

theorem slot_writeRegister (m : Machine x) (rd r : Register) (v : Word) :
    (m.writeRegister rd v).registers.read r = m.registers.read r ∨
      x.mask ((m.writeRegister rd v).registers.read r) =
        (m.writeRegister rd v).registers.read r := by
  have hread : (m.writeRegister rd v).registers.read r = _ := m.registers.read_write rd r v
  by_cases hr : rd = r ∧ r ≠ Register.zero
  · rw [if_pos hr] at hread
    rw [hread]
    exact .inr (x.mask_mask v)
  · rw [if_neg hr] at hread
    exact .inl hread

theorem word_next (m : Machine x) : x.word (x.mask (m.pc + 4)) = m.hart.pc + 4 := by
  rw [Xlen.word_mask, Xlen.word_add, Xlen.word_four]
  rfl

/-- The address that an instruction computes from a register or the program counter. -/
theorem word_target {n : Nat} (base : Word) (offset : BitVec n) :
    x.word (x.mask (base + offset.signExtend 64)) = x.word base + offset.signExtend x.bits := by
  rw [Xlen.word_mask, Xlen.word_add, Xlen.word_signExtend]

/-- An instruction that sets a register. -/
theorem agrees_writeRegister {j : Isa.Instr} {rd : Register} {v : Word}
    (h : m.hart.exec? j = some (m.hart.set rd (x.word v)).next) :
    m.Agrees j (x.mask (m.pc + 4)) (m.writeRegister rd v) where
  exec := by
    rw [h, hart_writeRegister, word_next]
    rfl
  next_mask := x.mask_mask _
  slot r := m.slot_writeRegister rd r v
  surrounds := ⟨rfl, rfl, rfl, rfl⟩
  state := rfl

/-- An instruction that sets a register to a result of the arithmetic unit. -/
theorem agrees_arithmetic {j : Isa.Instr} {op : AluOp} {word : Bool} {rd : Register}
    {a b next : Word}
    (hrun : (.ok (x.mask (m.pc + 4)) (m.writeRegister rd (StepM.arithmetic x op word a b)) :
      EStateM.Result RunError (Machine x) Word) = .ok next m')
    (h : m.hart.exec? j =
      some (m.hart.set rd (Isa.result x op word (x.word a) (x.word b))).next) :
    m.Agrees j next m' := by
  cases hrun
  refine agrees_writeRegister ?_
  rw [Isa.word_arithmetic]
  exact h

/-- An instruction that only goes on. -/
theorem agrees_next {j : Isa.Instr} (h : m.hart.exec? j = some m.hart.next) :
    m.Agrees j (x.mask (m.pc + 4)) m where
  exec := by
    rw [h, word_next]
    rfl
  next_mask := x.mask_mask _
  slot _ := .inl rfl
  surrounds := .refl m
  state := rfl

theorem goto?_word (s : Isa.State x) {target : Word} (h : target.toNat % instructionSize = 0) :
    s.goto? (x.word target) = some { s with pc := x.word target } := by
  have halign : (x.word target).toNat % 4 = 0 := by
    rw [Xlen.toNat_word]
    -- The size of the address space is a multiple of four.
    cases x <;> simp only [Xlen.wrap, Xlen.space, instructionSize] at * <;> omega
  rw [Isa.State.goto?, if_pos halign]

/-- A jump that does not lead between instructions. -/
theorem agrees_jump {j : Isa.Instr} {rd : Register} {target next : Word}
    (hrun : StepM.jump m.pc rd target m = .ok next m') (hmask : x.mask target = target)
    (h : m.hart.exec? j = (m.hart.set rd (m.hart.pc + 4)).goto? (x.word target)) :
    m.Agrees j next m' := by
  rw [StepM.jump_eq] at hrun
  by_cases halign : target.toNat % instructionSize = 0
  · rw [if_pos halign] at hrun
    cases hrun
    exact
      { exec := by rw [h, goto?_word _ halign, hart_writeRegister, word_next]
        next_mask := hmask
        slot := fun r => m.slot_writeRegister rd r _
        surrounds := ⟨rfl, rfl, rfl, rfl⟩
        state := rfl }
  · rw [if_neg halign] at hrun
    cases hrun

theorem agrees_branch {condition : BranchCondition} {rs1 rs2 : Register} {offset : BitVec 13}
    {next : Word}
    (hrun : StepM.execute m.pc (.branch condition rs1 rs2 (offset.signExtend 64)) m =
      .ok next m') :
    m.Agrees (.branch condition rs1 rs2 offset) next m' := by
  have hcondition := Isa.holds_eq_taken (x := x) condition (m.registers.read rs1)
    (m.registers.read rs2)
  have hexec : m.hart.exec? (.branch condition rs1 rs2 offset) =
      if condition.holds x (m.registers.read rs1) (m.registers.read rs2) then
        m.hart.goto? (m.hart.pc + offset.signExtend x.bits)
      else some m.hart.next := by
    rw [hcondition]
    rfl
  -- The hart does not see the count of taken branches.
  rw [StepM.execute_branch] at hrun
  by_cases htaken : condition.holds x (m.registers.read rs1) (m.registers.read rs2) = true
  · rw [if_pos htaken] at hrun hexec
    dsimp only at hrun
    by_cases halign : (x.mask (m.pc + offset.signExtend 64)).toNat % instructionSize = 0
    · rw [if_pos halign] at hrun
      cases hrun
      exact
        { exec := by
            rw [hexec, ← goto?_word _ halign, word_target]
            rfl
          next_mask := x.mask_mask _
          slot := fun r => .inl rfl
          surrounds := ⟨rfl, rfl, rfl, rfl⟩
          state := rfl }
    · rw [if_neg halign] at hrun
      cases hrun
  · rw [if_neg htaken] at hrun hexec
    cases hrun
    exact agrees_next hexec

/-- The loaded number, extended at the width of the registers. -/
theorem word_loaded (n : Nat) (signed : Bool) {raw : Nat} {v : BitVec (8 * n)}
    (hv : v.toNat = raw) :
    x.word (StepM.loaded n signed raw) = if signed then v.signExtend x.bits else v.setWidth x.bits := by
  have hraw : BitVec.ofNat (8 * n) raw = v := by
    rw [← hv, BitVec.ofNat_toNat, BitVec.setWidth_eq]
  rw [StepM.loaded]
  by_cases hsigned : signed = true
  · rw [if_pos hsigned, if_pos hsigned, Xlen.word_signExtend, hraw]
  · rw [if_neg hsigned, if_neg hsigned, Xlen.word_ofNat, ← hv, BitVec.ofNat_toNat]

/-- The words of addresses are the addresses. -/
theorem ofNat_address {n : Nat} (base : Word) (offset : BitVec n) :
    BitVec.ofNat x.bits (x.mask (base + offset.signExtend 64)).toNat =
      x.word base + offset.signExtend x.bits := by
  rw [BitVec.ofNat_toNat, ← word_target]
  rfl

theorem agrees_load {width : AccessWidth} {signed : Bool} {rd rs1 : Register} {offset : BitVec 12}
    {next : Word}
    (hrun : StepM.execute m.pc (.load width signed rd rs1 (offset.signExtend 64)) m =
      .ok next m') :
    m.Agrees (.load width signed rd rs1 offset) next m' := by
  rw [StepM.execute_load] at hrun
  cases hload : m.memory.load (x.mask (m.registers.read rs1 + offset.signExtend 64)).toNat
      width.bytes with
  | error e =>
    rw [hload] at hrun
    cases hrun
  | ok raw =>
    rw [hload] at hrun
    cases hrun
    have hread := Memory.read_of_load (s := m.hart) rfl (by cases width <;> decide) hload
    rw [ofNat_address] at hread
    refine agrees_writeRegister ?_
    rw [word_loaded _ _ hread]
    rfl

theorem agrees_store {width : AccessWidth} {rs1 rs2 : Register} {offset : BitVec 12}
    {next : Word} (hwidth : width.bytes ≤ x.bytes)
    (hrun : StepM.execute m.pc (.store width rs1 rs2 (offset.signExtend 64)) m = .ok next m') :
    m.Agrees (.store width rs1 rs2 offset) next m' := by
  rw [StepM.execute_store] at hrun
  cases hstore : m.memory.store (x.mask (m.registers.read rs1 + offset.signExtend 64)).toNat
      width.bytes (m.registers.read rs2).toNat with
  | error e =>
    rw [hstore] at hrun
    cases hrun
  | ok memory =>
    rw [hstore] at hrun
    cases hrun
    have hview := Memory.view_of_store hwidth hstore
    rw [ofNat_address] at hview
    exact
      { exec := by
          refine congrArg some (Isa.State.ext rfl (word_next m).symm (funext fun c => ?_))
          exact (hview c).symm
        next_mask := x.mask_mask _
        slot := fun r => .inl rfl
        surrounds := ⟨rfl, Memory.aligned_of_store hstore, rfl, rfl⟩
        state := rfl }

/-- An instruction that is executed has the effect of the instruction of the set. -/
theorem execute_agrees {i : Instruction} {j : Isa.Instr} {next : Word}
    (hij : Isa.Corresponds x i j) (hcall : i ≠ .ecall)
    (hrun : StepM.execute m.pc i m = .ok next m') : m.Agrees j next m' := by
  cases hij with
  | @lui rd imm =>
    refine agrees_arithmetic hrun ?_
    have hzero : x.word 0 = 0 := Xlen.word_ofNat 0
    rw [Xlen.word_signExtend, hzero]
    exact congrArg (fun v => some (m.hart.set rd v).next) (BitVec.zero_add _).symm
  | auipc =>
    refine agrees_arithmetic hrun ?_
    rw [Xlen.word_signExtend]
    rfl
  | jal =>
    refine agrees_jump hrun (x.mask_mask _) ?_
    rw [word_target]
    rfl
  | jalr =>
    refine agrees_jump hrun (x.mask_and_mask _ _) ?_
    rw [Xlen.word_clearLow, word_target]
    rfl
  | branch => exact agrees_branch hrun
  | load => exact agrees_load hrun
  | store hwidth => exact agrees_store hwidth hrun
  | immediate =>
    refine agrees_arithmetic hrun ?_
    rw [Xlen.word_signExtend]
    rfl
  | shift hop =>
    refine agrees_arithmetic hrun ?_
    rw [Xlen.word_signExtend, Isa.result_shift hop]
    rfl
  | register => exact agrees_arithmetic hrun rfl
  | fence | ebreak =>
    cases hrun
    exact agrees_next rfl
  | ecall => exact absurd rfl hcall

/-- The instruction in front of the machine is the one that its hart reads. -/
theorem Faces.exists_corresponds {i : Instruction} (h : m.Faces i) :
    ∃ j, Isa.Instr.ofWord? x (m.hart.read m.hart.pc 4) = some j ∧ Isa.Corresponds x i j := by
  obtain ⟨raw, hload, hword⟩ := h.fetch
  have hread : (m.hart.read m.hart.pc 4).toNat = raw := by
    have hbytes := Memory.read_of_load (s := m.hart) rfl (by decide) hload
    rw [BitVec.ofNat_toNat] at hbytes
    exact hbytes
  have hfetched : m.hart.read m.hart.pc 4 = BitVec.ofNat 32 raw := by
    rw [← hread, BitVec.ofNat_toNat]
    exact (BitVec.setWidth_eq _).symm
  have hrel := Isa.ofWord?_rel x (BitVec.ofNat 32 raw)
  rw [hword] at hrel
  rw [hfetched]
  cases hj : Isa.Instr.ofWord? x (BitVec.ofNat 32 raw) with
  | none =>
    rw [hj] at hrel
    cases hrel
  | some j =>
    rw [hj] at hrel
    cases hrel with
    | some hij => exact ⟨j, rfl, hij⟩

/-! ### Steps -/

section

variable {i : Instruction} {state : RunState}

/-- A step that succeeds executes what the hart reads and retires it. -/
theorem exists_agrees_of_step (h : m.Faces i) (hcall : i ≠ .ecall)
    (hstep : step m = .ok state m') :
    ∃ j next m₁, Isa.Instr.ofWord? x (m.hart.read m.hart.pc 4) = some j ∧
      Agrees { m with state := .running } j next m₁ ∧ m₁.state ≠ .halted ∧
      m' = m₁.retired i next := by
  obtain ⟨next, m₁, hrun, hretired⟩ := exists_execute_of_step h hstep
  obtain ⟨j, hj, hij⟩ := h.exists_corresponds
  have hagrees := execute_agrees (m := { m with state := .running }) hij hcall hrun
  have hstate : m₁.state ≠ .halted := by
    rw [hagrees.state]
    show RunState.running ≠ .halted
    decide
  exact ⟨j, next, m₁, hj, hagrees, hstate, hretired⟩

theorem hart_retired {next : Word} (h : m.state ≠ .halted) :
    (m.retired i next).hart = { m.hart with pc := x.word next } := by
  rw [hart, registers_retired, pc_retired i next h, memory, arena_retired]
  rfl

theorem hart_of_step (h : m.Faces i) (hcall : i ≠ .ecall) (hstep : step m = .ok state m') :
    m.hart.step? = some m'.hart := by
  obtain ⟨j, next, m₁, hj, hagrees, hstate, rfl⟩ := exists_agrees_of_step h hcall hstep
  show (Isa.Instr.ofWord? x (m.hart.read m.hart.pc 4)).bind m.hart.exec? = _
  rw [hj, hart_retired hstate]
  exact hagrees.exec

theorem Canonical.of_step (hcanonical : m.Canonical) (h : m.Faces i) (hcall : i ≠ .ecall)
    (hstep : step m = .ok state m') : m'.Canonical := by
  obtain ⟨j, next, m₁, hj, hagrees, hstate, rfl⟩ := exists_agrees_of_step h hcall hstep
  rw [canonical_iff] at hcanonical ⊢
  constructor
  · intro r
    rw [registers_retired]
    -- A slot that was not written is as it was, and a written one is masked.
    rcases hagrees.slot r with hkept | hmask
    · rw [hkept]
      exact hcanonical.1 r
    · exact hmask
  · rw [pc_retired i next hstate]
    exact hagrees.next_mask

theorem surrounds_of_step (h : m.Faces i) (hcall : i ≠ .ecall) (hstep : step m = .ok state m') :
    m.Surrounds m' := by
  obtain ⟨j, next, m₁, hj, hagrees, hstate, rfl⟩ := exists_agrees_of_step h hcall hstep
  have hsurrounds := hagrees.surrounds
  constructor
  · rw [heap, arena_retired]
    exact hsurrounds.heap
  · rw [memory, arena_retired]
    exact hsurrounds.aligned
  · rw [setup_retired]
    exact hsurrounds.setup
  · rw [breakpoints_retired]
    exact hsurrounds.breakpoints

/-- A step in front of an instruction other than an environment call, if it succeeds, is
the step of the hart; it keeps the slots canonical and changes nothing around the
hart. -/
theorem step_refines (h : m.Faces i) (hcall : i ≠ .ecall) (hstep : step m = .ok state m') :
    m.hart.step? = some m'.hart ∧ (m.Canonical → m'.Canonical) ∧ m.Surrounds m' :=
  ⟨hart_of_step h hcall hstep, fun hcanonical => hcanonical.of_step h hcall hstep,
    surrounds_of_step h hcall hstep⟩

end

/-- The instruction `addi t0, zero, -1` alone. -/
def minusOne : Program := { text := [0xFFF00293#32] }

theorem faces_minusOne {m : Machine .rv32} (hm : boot {} minusOne = .ok m) :
    m.Faces (.opImm .add false 5 0 (-1)) := by
  obtain ⟨-, hpc, hstate⟩ := boot_start hm
  have hsetup := (boot_spec hm).1
  have hzero : m.pc.toNat = 0 := by
    rw [hpc]
    rfl
  have hbyte (i : Nat) (hi : i ∈ List.range 4) :
      m.memory.loadByte (0 + i) = minusOne.textBytes[i]?.getD 0 := by
    have hlt : i < 4 := List.mem_range.1 hi
    have hload := loadByte_boot hm (a := i) (Nat.lt_trans hlt (by decide))
    -- Text lies at address 0 and data far above it.
    have hdata : ¬ (0x10000000 ≤ i ∧ i < 0x10000000 + 0) := by omega
    rw [hsetup] at hload
    rw [Nat.zero_add]
    have htext : 0 ≤ i ∧ i < 0 + 4 := by omega
    exact hload.trans ((if_neg hdata).trans (if_pos htext))
  have hcell : m.memory.cell 0 = 0xFFF00293 := by
    show littleEndian ((List.range 4).map fun i => m.memory.loadByte (0 + i)) = _
    rw [List.map_congr_left hbyte]
    decide
  constructor
  · rw [hstate]
    decide
  · rw [InText, hsetup, hzero]
    decide
  · rw [hsetup]
    exact nofun
  · refine ⟨0xFFF00293, ?_, by decide⟩
    rw [hzero, ← hcell]
    exact m.memory.loadCell_eq (a := 0) (by decide)

/-- The first step of a program that sets `t0` to -1. -/
theorem step_refines_minusOne : ∃ (m m' : Machine .rv32) (state : RunState),
    boot {} minusOne = .ok m ∧ step m = .ok state m' ∧ m.hart.step? = some m'.hart ∧
      m'.hart.reg 5 = -1 ∧ m'.registers.read 5 = 0xFFFFFFFF := by
  obtain ⟨m, hm⟩ : ∃ m : Machine .rv32, boot {} minusOne = .ok m := ⟨_, rfl⟩
  have hfaces := faces_minusOne hm
  have hzero : m.registers.read 0 = 0 := m.registers.read_zero
  let m₁ := ({ m with state := .running } : Machine .rv32).writeRegister 5
    (StepM.arithmetic .rv32 .add false (m.registers.read 0) (-1))
  let m' := m₁.retired (.opImm .add false 5 0 (-1)) (Xlen.rv32.mask (m.pc + 4))
  have hstep : step m = .ok m'.state m' := (step_eq hfaces).trans rfl
  have hread : m'.registers.read 5 = 0xFFFFFFFF := by
    rw [registers_retired]
    show (m.registers.write 5 _).read 5 = _
    rw [RegisterFile.read_write, hzero, if_pos (by decide)]
    decide
  have hreg : m'.hart.reg 5 = -1 := by
    show Xlen.rv32.word (m'.registers.read 5) = _
    rw [hread]
    decide
  have hrefines := step_refines hfaces (by decide) hstep
  exact ⟨m, m', m'.state, hm, hstep, hrefines.1, hreg, hread⟩

/-! ### Runs -/

/-- One machine steps to the other, past an instruction other than an environment call. -/
def StepsTo (m m' : Machine x) : Prop :=
  ∃ i state, m.Faces i ∧ i ≠ .ecall ∧ step m = .ok state m'

theorem Surrounds.trans {m₁ m₂ m₃ : Machine x} (h : m₁.Surrounds m₂) (h' : m₂.Surrounds m₃) :
    m₁.Surrounds m₃ :=
  ⟨h'.heap.trans h.heap, h'.aligned.trans h.aligned, h'.setup.trans h.setup,
    h'.breakpoints.trans h.breakpoints⟩

/-- A run between environment calls is a run of the hart. -/
theorem run_of_stepsTo (h : Relation.ReflTransGen StepsTo m m') :
    Relation.ReflTransGen (fun s s' => s.step? = some s') m.hart m'.hart ∧
      (m.Canonical → m'.Canonical) ∧ m.Surrounds m' := by
  induction h with
  | refl => exact ⟨.refl, id, .refl m⟩
  | tail _ hlast ih =>
    obtain ⟨hrun, hcanonical, hsurrounds⟩ := ih
    obtain ⟨i, state, hfaces, hcall, hstep⟩ := hlast
    exact ⟨hrun.tail (hart_of_step hfaces hcall hstep),
      fun h => (hcanonical h).of_step hfaces hcall hstep,
      hsurrounds.trans (surrounds_of_step hfaces hcall hstep)⟩

end Machine

end Hart
