/-
Assembly text read back.

What the disassembler writes for an accepted word tells the instruction.

* `Signals.mnemonic_inj` — mnemonics tell what signals select;
* `Signals.instr_eq_of_operands` — operands tell what it takes from the fields;
* `Disassembly.disassemble_eq` — the disassembler against the decoder.

Design notes: mnemonics are compared over a list with one instruction for each of them.
A line is taken apart at its separators (`Text.line_inj`).
-/
import Mathlib.Data.List.Nodup
import Hart.Proofs.Isa.Assembly

namespace Hart

open Text (hex line)

namespace Signals

open Isa

/-! ### Mnemonics -/

/-- The operations of the arithmetic unit. -/
def operations : List AluOp :=
  [.add, .sub, .sll, .slt, .sltu, .xor, .srl, .sra, .or, .and, .mul, .mulh, .mulhsu, .mulhu,
   .div, .divu, .rem, .remu]

/-- An instruction with each mnemonic, but for `fence.i`. -/
def kinds : List Instr :=
  [.lui 0 0, .auipc 0 0, .jal 0 0, .jalr 0 0 0, .fence, .ecall, .ebreak] ++
  BranchCondition.all.map (.branch · 0 0 0) ++
  [AccessWidth.byte, .half, .word, .double].flatMap (fun width =>
    [.store width 0 0 0, .load width false 0 0 0, .load width true 0 0 0]) ++
  operations.flatMap fun op =>
    [.immediate op false 0 0 0, .immediate op true 0 0 0, .register op false 0 0 0,
      .register op true 0 0 0]

/-- Signals with the function code that tells the fences apart. -/
def named : List (Signals × BitVec 3) :=
  (Instr.fence.signals, 1) :: kinds.map fun j => (j.signals, 0)

theorem nodup_mnemonics : ("unknown" :: named.map fun p => p.1.mnemonic p.2).Nodup := by
  decide +kernel

theorem space_notMem_mnemonics : ∀ p ∈ named, ' ' ∉ (p.1.mnemonic p.2).toList := by
  decide +kernel

theorem arithmetic_mem_kinds (op : AluOp) (word : Bool) :
    Instr.immediate op word 0 0 0 ∈ kinds ∧ Instr.register op word 0 0 0 ∈ kinds := by
  have hop : op ∈ operations := by cases op <;> decide
  constructor
  all_goals
    refine List.mem_append_right _ (List.mem_flatMap.2 ⟨op, hop, ?_⟩)
    cases word <;> simp

theorem exists_kind (j : Instr) : ∃ k ∈ kinds, k.signals = j.signals := by
  cases j with
  | lui => exact ⟨.lui 0 0, by decide +kernel, rfl⟩
  | auipc => exact ⟨.auipc 0 0, by decide +kernel, rfl⟩
  | jal => exact ⟨.jal 0 0, by decide +kernel, rfl⟩
  | jalr => exact ⟨.jalr 0 0 0, by decide +kernel, rfl⟩
  | branch condition =>
    exact ⟨.branch condition 0 0 0, by cases condition <;> decide +kernel, rfl⟩
  | load width signed =>
    exact ⟨.load width signed 0 0 0, by cases width <;> cases signed <;> decide +kernel, rfl⟩
  | store width => exact ⟨.store width 0 0 0, by cases width <;> decide +kernel, rfl⟩
  | immediate op word => exact ⟨_, (arithmetic_mem_kinds op word).1, rfl⟩
  | shift op word => exact ⟨_, (arithmetic_mem_kinds op word).1, rfl⟩
  | register op word => exact ⟨_, (arithmetic_mem_kinds op word).2, rfl⟩
  | fence => exact ⟨.fence, by decide +kernel, rfl⟩
  | ecall => exact ⟨.ecall, by decide +kernel, rfl⟩
  | ebreak => exact ⟨.ebreak, by decide +kernel, rfl⟩

theorem exists_named (j : Instr) (funct3 : BitVec 3) :
    ∃ p ∈ named, p.1 = j.signals ∧ p.1.mnemonic p.2 = j.signals.mnemonic funct3 := by
  have hzero : (j.signals, 0) ∈ named := by
    obtain ⟨k, hk, hsignals⟩ := exists_kind j
    exact List.mem_cons_of_mem _ (List.mem_map.2 ⟨k, hk, by rw [hsignals]⟩)
  -- Only the mnemonic of a fence depends on the function code.
  cases j with
  | fence =>
    by_cases hcode : funct3 = 0
    · exact ⟨_, hzero, rfl, by rw [hcode]⟩
    · exact ⟨(Instr.fence.signals, 1), List.mem_cons_self, rfl, (if_neg hcode).symm⟩
  | _ => exact ⟨_, hzero, rfl, rfl⟩

theorem mnemonic_inj {j k : Instr} {funct3 funct3' : BitVec 3}
    (h : j.signals.mnemonic funct3 = k.signals.mnemonic funct3') : j.signals = k.signals := by
  obtain ⟨p, hp, hpj, hpm⟩ := exists_named j funct3
  obtain ⟨q, hq, hqk, hqm⟩ := exists_named k funct3'
  have heq : p = q :=
    List.inj_on_of_nodup_map (List.nodup_cons.1 nodup_mnemonics).2 hp hq (by rw [hpm, hqm, h])
  rw [← hpj, heq, hqk]

theorem mnemonic_ne_unknown (j : Instr) (funct3 : BitVec 3) :
    j.signals.mnemonic funct3 ≠ "unknown" := by
  intro h
  obtain ⟨p, hp, -, hpm⟩ := exists_named j funct3
  exact (List.nodup_cons.1 nodup_mnemonics).1 (List.mem_map.2 ⟨p, hp, hpm.trans h⟩)

theorem space_notMem_mnemonic (j : Instr) (funct3 : BitVec 3) :
    ' ' ∉ (j.signals.mnemonic funct3).toList := by
  obtain ⟨p, hp, -, hpm⟩ := exists_named j funct3
  rw [← hpm]
  exact space_notMem_mnemonics p hp

/-! ### Operands -/

theorem name_inj {r r' : Register} : r.name = r'.name ↔ r = r' := by
  revert r r'
  decide +kernel

theorem comma_notMem_name (r : Register) : ',' ∉ r.name.toList := by
  revert r
  decide +kernel

theorem comma_notMem_operands (s : Signals) (f : Fields) :
    ∀ a ∈ s.operands f, ',' ∉ a.toList := by
  have hdigit : ∀ d, Nat.digitChar d ≠ ',' := fun d => Nat.digitChar_ne ',' rfl
  have hnumber (n : Int) : ',' ∉ n.repr.toList := Text.notMem_toString hdigit (by decide) n
  have hupper (n : Nat) : ',' ∉ (hex n).toList := Text.notMem_hex hdigit (by decide) n
  unfold operands
  dsimp only
  split
  · simp
  · simp [comma_notMem_name, hnumber]
  · simp [comma_notMem_name, hnumber]
  · simp [comma_notMem_name, hnumber]
  · split <;> simp [comma_notMem_name, hnumber]
  · split
    · simp [comma_notMem_name]
    · simp [comma_notMem_name, hnumber]
    · simp [comma_notMem_name, hupper]

/-- The instruction that signals and fields select. -/
def instr (s : Signals) (f : Fields) : Instr :=
  match s.system, s.jump, s.branch, s.width with
  | some .ecall, _, _, _ => .ecall
  | some .ebreak, _, _, _ => .ebreak
  | some .fence, _, _, _ => .fence
  | none, some .jal, _, _ => .jal f.rd (f.imm.setWidth 21)
  | none, some .jalr, _, _ => .jalr f.rd f.rs1 (f.imm.setWidth 12)
  | none, none, some condition, _ => .branch condition f.rs1 f.rs2 (f.imm.setWidth 13)
  | none, none, none, some width =>
    if s.memRead then .load width s.signedLoad f.rd f.rs1 (f.imm.setWidth 12)
    else .store width f.rs1 f.rs2 (f.imm.setWidth 12)
  | none, none, none, none =>
    match s.first, s.second with
    | .zero, _ => .lui f.rd (f.imm.extractLsb' 12 20)
    | .pc, _ => .auipc f.rd (f.imm.extractLsb' 12 20)
    | .reg1, .reg2 => .register s.alu s.wordOp f.rd f.rs1 f.rs2
    | .reg1, .imm =>
      if s.alu.unit = .shifts then .shift s.alu s.wordOp f.rd f.rs1 (s.amount f)
      else .immediate s.alu s.wordOp f.rd f.rs1 (f.imm.setWidth 12)

theorem unit_immediate? {word : Bool} {funct3 : BitVec 3} {op : AluOp}
    (h : immediate? word funct3 = some op) : op.unit ≠ .shifts := by
  unfold immediate? at h
  split at h <;> cases h <;> decide

theorem unit_shift? {narrow : Bool} {funct3 : BitVec 3} {funct7 : BitVec 7} {op : AluOp}
    (h : shift? narrow funct3 funct7 = some op) : op.unit = .shifts := by
  rcases shift?_isShift h with rfl | rfl | rfl <;> rfl

/-- A five-bit amount leaves the bit above it to the selector. -/
theorem narrow_shift? {funct3 : BitVec 3} {funct7 : BitVec 7} {op : AluOp}
    (h : shift? true funct3 funct7 = some op) : funct7.getLsbD 0 = false := by
  unfold shift? at h
  split at h
  case isTrue => cases h
  case isFalse hbit => simpa using hbit

theorem setWidth_five {a : BitVec 6} (h : a.getLsbD 5 = false) :
    (a.setWidth 5).setWidth 6 = a := by
  revert a
  decide

theorem amount_shift? {word : Bool} {funct3 : BitVec 3} {op : AluOp} {code amount : BitVec 6}
    (h : shift? (word || Xlen.rv64 = .rv32) funct3 (code ++ amount.extractLsb' 5 1) = some op)
    {f : Fields} (himm : f.imm = (code ++ amount).signExtend 64) :
    (Signals.immediate op word).amount f = amount := by
  have hlow : f.imm.setWidth 6 = amount := by
    rw [himm]
    exact Disassembly.setWidth_signExtend_append ..
  cases word with
  | false => exact hlow
  | true =>
    have htop : amount.getLsbD 5 = false := by
      have hbit := narrow_shift? h
      rw [BitVec.getLsbD_append, if_pos (by decide), BitVec.getLsbD_extractLsb'] at hbit
      simpa using hbit
    have hfive : f.imm.setWidth 5 = amount.setWidth 5 := by
      rw [← hlow, BitVec.setWidth_setWidth_of_le _ (by decide)]
    exact (congrArg (BitVec.setWidth 6) hfive).trans (setWidth_five htop)

theorem instr_signals {j : Instr} {w : BitVec 32} (h : Encodes .rv64 j w) :
    j.signals.instr (Fields.ofWord w) = j := by
  cases h with
  | @lui rd imm =>
    rw [Fields.ofWord_wordU rfl]
    exact congrArg (Instr.lui rd) (extractLsb'_signExtend_append imm)
  | @auipc rd imm =>
    rw [Fields.ofWord_wordU rfl]
    exact congrArg (Instr.auipc rd) (extractLsb'_signExtend_append imm)
  | @jal rd offset heven =>
    rw [Fields.ofWord_wordJ rfl heven]
    exact congrArg (Instr.jal rd) (setWidth_signExtend (by decide) offset)
  | @jalr rd rs1 offset =>
    rw [Fields.ofWord_wordI rfl]
    exact congrArg (Instr.jalr rd rs1) (setWidth_signExtend (by decide) offset)
  | @branch condition rs1 rs2 offset funct3 hline heven =>
    rw [Fields.ofWord_wordB rfl heven]
    exact congrArg (Instr.branch condition rs1 rs2) (setWidth_signExtend (by decide) offset)
  | @load width signed rd rs1 offset funct3 hline =>
    rw [Fields.ofWord_wordI rfl]
    exact congrArg (Instr.load width signed rd rs1) (setWidth_signExtend (by decide) offset)
  | @store width rs1 rs2 offset funct3 hline =>
    rw [Fields.ofWord_wordS rfl]
    exact congrArg (Instr.store width rs1 rs2) (setWidth_signExtend (by decide) offset)
  | @immediate op word rd rs1 imm funct3 hword hline =>
    rw [Fields.ofWord_wordI (by cases word <;> rfl)]
    refine (if_neg (unit_immediate? hline)).trans ?_
    exact congrArg (Instr.immediate op word rd rs1) (setWidth_signExtend (by decide) imm)
  | @shift op word rd rs1 amount funct3 code hword hline =>
    rw [Fields.ofWord_wordI (by cases word <;> rfl)]
    refine (if_pos (unit_shift? hline)).trans ?_
    exact congrArg (Instr.shift op word rd rs1) (amount_shift? hline rfl)
  | @register op word rd rs1 rs2 funct3 funct7 hword hline =>
    rw [Fields.ofWord_wordR]
    rfl
  | fence hline => rfl
  | ecall => rfl
  | ebreak => rfl

theorem toString_toInt_inj {v w : Word} : toString v.toInt = toString w.toInt ↔ v = w :=
  Text.toString_inj.trans BitVec.toInt_inj

/-- The operands show what the instruction takes from the fields. -/
theorem instr_eq_of_operands {s : Signals} {f g : Fields} (h : s.operands f = s.operands g) :
    s.instr f = s.instr g := by
  obtain ⟨category, regWrite, memRead, memWrite, width, signedLoad, wordOp, alu, first, second,
    branch, jump, system⟩ := s
  -- The cases of the mnemonic; in each, equal operands are equal registers and numbers.
  cases system with
  | some op => cases op <;> rfl
  | none =>
    cases jump with
    | some kind =>
      cases kind with
      | jal =>
        simp only [operands, List.cons.injEq, and_true, name_inj, toString_toInt_inj] at h
        simp only [instr, h]
      | jalr =>
        simp only [operands, List.cons.injEq, and_true, name_inj, Text.offset_inj,
          BitVec.toInt_inj] at h
        simp only [instr, h]
    | none =>
      cases branch with
      | some condition =>
        simp only [operands, List.cons.injEq, and_true, name_inj, toString_toInt_inj] at h
        simp only [instr, h]
      | none =>
        cases width with
        | some width =>
          cases memRead
          all_goals
            simp only [operands, if_true, Bool.false_eq_true, if_false, List.cons.injEq, and_true,
              name_inj, Text.offset_inj, BitVec.toInt_inj] at h
            simp only [instr, if_true, Bool.false_eq_true, if_false, h]
        | none =>
          cases first with
          | zero | pc =>
            simp only [operands, List.cons.injEq, and_true, name_inj, Text.hex_inj,
              BitVec.toNat_inj] at h
            simp only [instr, h]
          | reg1 =>
            cases second with
            | reg2 =>
              simp only [operands, List.cons.injEq, and_true, name_inj] at h
              simp only [instr, h]
            | imm =>
              simp only [operands, List.cons.injEq, and_true, name_inj, Text.toString_inj] at h
              by_cases hunit : alu.unit = .shifts
              · simp only [if_pos hunit, Int.ofNat_inj, BitVec.toNat_inj] at h
                simp only [instr, if_pos hunit, h]
              · simp only [if_neg hunit, BitVec.toInt_inj] at h
                simp only [instr, if_neg hunit, h]

/-- Texts of instructions tell them apart. -/
theorem assembly_inj {j k : Instr} {v w : BitVec 32} (hj : Encodes .rv64 j v)
    (hk : Encodes .rv64 k w)
    (h : j.signals.assembly (Fields.ofWord v) = k.signals.assembly (Fields.ofWord w)) : j = k := by
  obtain ⟨hmnemonic, hoperands⟩ := Text.line_inj (space_notMem_mnemonic j _)
    (space_notMem_mnemonic k _) (comma_notMem_operands _ _) (comma_notMem_operands _ _) h
  -- Both instructions are what the same signals select from fields that show the same.
  rw [← instr_signals hj, ← instr_signals hk]
  rw [← mnemonic_inj hmnemonic] at hoperands ⊢
  exact instr_eq_of_operands hoperands

theorem assembly_ne_unknown (j : Instr) (f : Fields) : j.signals.assembly f ≠ "unknown" := by
  intro h
  have hline : line (j.signals.mnemonic f.funct3) (j.signals.operands f) = line "unknown" [] := h
  obtain ⟨hmnemonic, -⟩ := Text.line_inj (space_notMem_mnemonic j _) (by decide)
    (comma_notMem_operands _ _) (by simp) hline
  exact mnemonic_ne_unknown j f.funct3 hmnemonic

end Signals

/-! ### The disassembler -/

namespace Disassembly

open Isa

variable {pc : Nat} {w : BitVec 32}

theorem text?_of_ok {s : Signals} (h : Signals.ofWord .rv64 pc w = .ok s) :
    text? w = some (s.assembly (Fields.ofWord w)) := by
  unfold Signals.ofWord at h
  split at h
  case h_1 i hi =>
    cases h
    exact text?_of_ofWord? hi
  case h_2 => cases h

theorem text?_of_error {e : RunError} (h : Signals.ofWord .rv64 pc w = .error e)
    (hform : ¬ ShiftForm (Fields.ofWord w)) : text? w = none := by
  unfold Signals.ofWord at h
  split at h
  case h_1 => cases h
  case h_2 hnone =>
    rw [text?_eq hform, hnone]
    rfl

/-- The disassembler writes what the decoder selects.  A word that a wide machine refuses is
unknown to it unless it has the form of an immediate shift; a text there is that of the
shift whose selector bits are in order.  The texts of instructions tell them apart. -/
theorem disassemble_eq (pc : Nat) (w : BitVec 32) :
    (disassemble w = "unknown" ↔
      (∃ e, Signals.ofWord .rv64 pc w = .error e) ∧ ¬ ShiftForm (Fields.ofWord w)) ∧
    (∀ s, Signals.ofWord .rv64 pc w = .ok s → disassemble w = s.assembly (Fields.ofWord w)) ∧
    (ShiftForm (Fields.ofWord w) → ∃ s,
      Signals.ofWord .rv64 pc (shiftWord (Fields.ofWord w)) = .ok s ∧
        disassemble w = s.assembly (Fields.ofWord (shiftWord (Fields.ofWord w)))) ∧
    ∀ v j k, Encodes .rv64 j w → Encodes .rv64 k v → disassemble w = disassemble v → j = k := by
  have hshift (hform : ShiftForm (Fields.ofWord w)) :
      ∃ s, Signals.ofWord .rv64 pc (shiftWord (Fields.ofWord w)) = .ok s ∧
        disassemble w = s.assembly (Fields.ofWord (shiftWord (Fields.ofWord w))) := by
    refine ⟨_, Signals.ofWord_of_encodes (encodes_shiftWord hform), ?_⟩
    rw [disassemble, text?_shiftForm hform]
    exact (assembly_shiftWord hform).symm
  have hok {v : BitVec 32} {s : Signals} (hs : Signals.ofWord .rv64 pc v = .ok s) :
      disassemble v = s.assembly (Fields.ofWord v) := by
    rw [disassemble, text?_of_ok hs]
    rfl
  refine ⟨⟨fun h => ?_, fun ⟨⟨e, he⟩, hform⟩ => ?_⟩, fun s hs => hok hs, hshift,
    fun v j k hj hk h => ?_⟩
  · -- No shift and no accepted word has that text.
    have hform : ¬ ShiftForm (Fields.ofWord w) := by
      intro hform
      obtain ⟨s, hs, htext⟩ := hshift hform
      obtain ⟨j, -, rfl⟩ := Signals.ofWord_eq_ok_iff.1 hs
      exact Signals.assembly_ne_unknown j _ (htext.symm.trans h)
    cases hs : Signals.ofWord .rv64 pc w with
    | error e => exact ⟨⟨e, rfl⟩, hform⟩
    | ok s =>
      obtain ⟨j, -, rfl⟩ := Signals.ofWord_eq_ok_iff.1 hs
      exact absurd ((hok hs).symm.trans h) (Signals.assembly_ne_unknown j _)
  · rw [disassemble, text?_of_error he hform]
    rfl
  · rw [hok (Signals.ofWord_of_encodes hj), hok (Signals.ofWord_of_encodes hk)] at h
    exact Signals.assembly_inj hj hk h

/-- A logical left shift whose selector bits would make it an arithmetic one. -/
theorem disassemble_eq_reserved :
    disassemble 0x40001013 = "slli zero, zero, 0" ∧
      Signals.ofWord .rv64 0 0x40001013 = .error (.illegalInstruction 0 0x40001013) ∧
      disassemble 0x40001013 ≠ "unknown" := by
  refine ⟨by decide, rfl, fun h => ?_⟩
  exact ((disassemble_eq 0 0x40001013).1.1 h).2 ⟨.inl rfl, .inl rfl⟩

end Disassembly

end Hart
