/-
Control signals and what they make a hart do.

A datapath computes on two operands, may access memory at the result, writes a
register, and goes on at the next instruction, at a target, or not at all.
`Isa.State.drive?` is one that takes every decision from control signals and every
operand from the fields of a word.

* `Isa.Instr.signals` — the signals of an instruction of the set;
* `Isa.State.drive?_signals` — under them, on the fields of one of its words, the
  datapath has the effect of the instruction;
* `Signals.decodes_encodings` — which words a machine accepts, with which signals.

Design notes: the datapath does not ask what an instruction is.  A signal that selected
another operation, operand, width or sign would show in the state after some
instruction.
-/
import Hart.Proofs.Isa.Decoding
import Hart.Proofs.Isa.Encodings

namespace Hart

namespace Isa

/-! ### Signals of instructions -/

/-- The control signals of an instruction. -/
def Instr.signals : Instr → Signals
  | lui .. => { regWrite := true, first := .zero }
  | auipc .. => { regWrite := true, first := .pc }
  | jal .. => { category := .jump, regWrite := true, jump := some .jal }
  | jalr .. => { category := .jump, regWrite := true, jump := some .jalr }
  | branch condition .. => { category := .branch, second := .reg2, branch := some condition }
  | load width signed .. =>
    { category := .load, regWrite := true, memRead := true, width := some width,
      signedLoad := signed }
  | store width .. => { category := .store, memWrite := true, width := some width }
  | immediate op word .. | shift op word .. => { regWrite := true, wordOp := word, alu := op }
  | register op word .. => { regWrite := true, wordOp := word, alu := op, second := .reg2 }
  | fence => { category := .system, system := some .fence }
  | ecall => { category := .system, system := some .ecall }
  | ebreak => { category := .system, system := some .ebreak }

theorem Corresponds.signals_eq {x : Xlen} {i : Instruction} {j : Instr}
    (h : Corresponds x i j) : i.signals = j.signals := by
  cases h <;> rfl

/-! ### The datapath -/

namespace State

variable {x : Xlen}

/-- The state after control signals on the fields of a word, none where it traps. -/
def drive? (st : State x) (s : Signals) (f : Fields) : Option (State x) :=
  let imm := x.word f.imm
  let a := match s.first with
    | .reg1 => st.reg f.rs1
    | .pc => st.pc
    | .zero => 0
  let b := match s.second with
    | .imm => imm
    | .reg2 => st.reg f.rs2
  let r := result x s.alu s.wordOp a b
  let size := (s.width.map AccessWidth.bytes).getD 0
  let loaded :=
    let v := st.read r size
    if s.signedLoad then v.signExtend x.bits else v.setWidth x.bits
  let v := if s.jump.isSome then st.pc + 4 else if s.memRead then loaded else r
  let wrote := if s.regWrite then st.set f.rd v else st
  let stored := if s.memWrite then wrote.write r size (st.reg f.rs2) else wrote
  match s.system, s.jump, s.branch with
  | some .ecall, _, _ => none
  | _, some .jal, _ => stored.goto? (st.pc + imm)
  | _, some .jalr, _ => stored.goto? (r &&& ~~~1)
  | _, none, some condition =>
    if taken a b condition then stored.goto? (st.pc + imm) else some stored.next
  | _, none, none => some stored.next

/-- The signals of an instruction make the datapath carry it out. -/
theorem drive?_signals {j : Instr} {w : BitVec 32} (h : Encodes x j w) (st : State x) :
    st.drive? j.signals (Fields.ofWord w) = st.exec? j := by
  cases h with
  | @lui rd imm =>
    rw [Fields.ofWord_wordU rfl]
    show some (st.set rd (0 + x.word ((imm ++ 0#12).signExtend 64))).next = _
    rw [Xlen.word_signExtend]
    exact congrArg (fun v => some (st.set rd v).next) (BitVec.zero_add _)
  | @auipc rd imm =>
    rw [Fields.ofWord_wordU rfl]
    show some (st.set rd (st.pc + x.word ((imm ++ 0#12).signExtend 64))).next = _
    rw [Xlen.word_signExtend]
    rfl
  | @jal rd offset heven =>
    rw [Fields.ofWord_wordJ rfl heven]
    show (st.set rd (st.pc + 4)).goto? (st.pc + x.word (offset.signExtend 64)) = _
    rw [Xlen.word_signExtend]
    rfl
  | @jalr rd rs1 offset =>
    rw [Fields.ofWord_wordI rfl]
    show (st.set rd (st.pc + 4)).goto? ((st.reg rs1 + x.word (offset.signExtend 64)) &&& ~~~1) = _
    rw [Xlen.word_signExtend]
    rfl
  | @branch condition rs1 rs2 offset funct3 hline heven =>
    rw [Fields.ofWord_wordB rfl heven]
    show (if taken (st.reg rs1) (st.reg rs2) condition then
      st.goto? (st.pc + x.word (offset.signExtend 64)) else some st.next) = _
    rw [Xlen.word_signExtend]
    rfl
  | @load width signed rd rs1 offset funct3 hline =>
    rw [Fields.ofWord_wordI rfl]
    show some (st.set rd (let v := st.read (st.reg rs1 + x.word (offset.signExtend 64)) width.bytes
      if signed then v.signExtend x.bits else v.setWidth x.bits)).next = _
    rw [Xlen.word_signExtend]
    rfl
  | @store width rs1 rs2 offset funct3 hline =>
    rw [Fields.ofWord_wordS rfl]
    show some (st.write (st.reg rs1 + x.word (offset.signExtend 64)) width.bytes
      (st.reg rs2)).next = _
    rw [Xlen.word_signExtend]
    rfl
  | @immediate op word rd rs1 imm funct3 hword hline =>
    rw [Fields.ofWord_wordI (by cases word <;> rfl)]
    show some (st.set rd (result x op word (st.reg rs1) (x.word (imm.signExtend 64)))).next = _
    rw [Xlen.word_signExtend]
    rfl
  | @shift op word rd rs1 amount funct3 code hword hline =>
    rw [Fields.ofWord_wordI (by cases word <;> rfl)]
    show some (st.set rd (result x op word (st.reg rs1)
      (x.word ((code ++ amount).signExtend 64)))).next = _
    -- The function code above the amount is not among the bits that a shift looks at.
    rw [Xlen.word_signExtend, result_shift (shift?_isShift hline)]
    rfl
  | @register op word rd rs1 rs2 funct3 funct7 hword hline =>
    rw [Fields.ofWord_wordR]
    rfl
  | fence hline => rfl
  | ecall => rfl
  | ebreak => rfl

end State

end Isa

namespace Signals

open Isa

variable {x : Xlen} {pc : Nat} {w : BitVec 32}

/-- The words of instructions are accepted, with the signals of the instruction. -/
theorem ofWord_of_encodes {j : Instr} (h : Encodes x j w) : ofWord x pc w = .ok j.signals := by
  have hrel := ofWord?_rel x w
  rw [ofWord?_of_encodes h] at hrel
  rw [ofWord]
  cases hi : Instruction.ofWord? x w with
  | none =>
    rw [hi] at hrel
    cases hrel
  | some i =>
    rw [hi] at hrel
    cases hrel with
    | some hij => exact congrArg Except.ok hij.signals_eq

/-- All other words are refused. -/
theorem ofWord_of_not_encodes (h : ¬ ∃ j, Encodes x j w) :
    ofWord x pc w = .error (.illegalInstruction pc w) := by
  have hrel := ofWord?_rel x w
  have hnone : Instr.ofWord? x w = none := by
    cases hj : Instr.ofWord? x w with
    | none => rfl
    | some j => exact absurd ⟨j, encodes_of_ofWord? hj⟩ h
  rw [hnone] at hrel
  rw [ofWord]
  cases hi : Instruction.ofWord? x w with
  | none => rfl
  | some i =>
    rw [hi] at hrel
    cases hrel

theorem ofWord_eq_ok_iff {s : Signals} :
    ofWord x pc w = .ok s ↔ ∃ j, Encodes x j w ∧ s = j.signals := by
  constructor
  · intro hok
    by_cases h : ∃ j, Encodes x j w
    · obtain ⟨j, hj⟩ := h
      rw [ofWord_of_encodes hj] at hok
      exact ⟨j, hj, (Except.ok.inj hok).symm⟩
    · rw [ofWord_of_not_encodes h] at hok
      cases hok
  · rintro ⟨j, hj, rfl⟩
    exact ofWord_of_encodes hj

/-- A machine accepts the words of the instructions of its width and no others.  The
signals of an accepted word drive its instruction, a refused word comes back with its
address, and what a narrow machine accepts a wide one accepts with the same signals. -/
theorem decodes_encodings (x : Xlen) (pc : Nat) (w : BitVec 32) :
    (∀ s, ofWord x pc w = .ok s ↔ ∃ j, Encodes x j w ∧ s = j.signals) ∧
      (∀ j, Encodes x j w → ∀ st : State x,
        st.drive? j.signals (Fields.ofWord w) = st.exec? j) ∧
      ((¬ ∃ j, Encodes x j w) → ofWord x pc w = .error (.illegalInstruction pc w)) ∧
      ∀ s, ofWord .rv32 pc w = .ok s → ofWord .rv64 pc w = .ok s := by
  refine ⟨fun s => ofWord_eq_ok_iff, fun j hj st => st.drive?_signals hj,
    ofWord_of_not_encodes, fun s hs => ?_⟩
  obtain ⟨j, hj, rfl⟩ := ofWord_eq_ok_iff.1 hs
  exact ofWord_of_encodes hj.widen

/-- The word of `srai a0, s1, 40`, which shifts by more than a narrow machine has bits. -/
theorem decodes_encodings_srai :
    Encodes .rv64 (.shift .sra false 10 9 40) 0x4284D513 ∧
      ofWord .rv64 0x40 0x4284D513 = .ok { regWrite := true, alu := .sra } ∧
      ofWord .rv32 0x40 0x4284D513 = .error (.illegalInstruction 0x40 0x4284D513) := by
  have hencodes : Encodes .rv64 (.shift .sra false 10 9 40) 0x4284D513 :=
    encodes_of_ofWord? (by decide)
  have hnone : Instr.ofWord? .rv32 0x4284D513 = none := by decide
  have hrefused : ¬ ∃ j, Encodes .rv32 j 0x4284D513 := by
    rintro ⟨j, hj⟩
    rw [ofWord?_of_encodes hj] at hnone
    cases hnone
  exact ⟨hencodes, ((decodes_encodings .rv64 0x40 _).1 _).2 ⟨_, hencodes, rfl⟩,
    (decodes_encodings .rv32 0x40 _).2.2.1 hrefused⟩

end Signals

end Hart
