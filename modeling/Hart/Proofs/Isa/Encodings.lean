/-
The words of instructions.

`Isa.Encodes x j w` says that `w` is a word of the instruction `j` on a hart of width
`x`.  There is one constructor for each way that the listings put an instruction
together: a major opcode, the function codes of a line, and the operands spread over
what the format leaves open.

* `Instr.ofWord?_eq_some_iff` — reading a word finds the instruction that it is a word
  of;
* `Encodes.widen` — the words of a narrow hart are words of a wide one.

Design notes: every instruction but a fence has one word.  The words of a fence are
all that have its opcode and one of its two function codes, whatever else they say.
-/
import Hart.Proofs.Isa.Formats

namespace Hart.Isa

/-- The opcodes `OP-IMM` and `OP-IMM-32`. -/
def immediateOpcode (word : Bool) : BitVec 7 := if word then 0b0011011 else 0b0010011

/-- The opcodes `OP` and `OP-32`. -/
def registerOpcode (word : Bool) : BitVec 7 := if word then 0b0111011 else 0b0110011

/-- The words of an instruction on a hart of width `x`. -/
inductive Encodes (x : Xlen) : Instr → BitVec 32 → Prop where
  | lui {rd imm} : Encodes x (.lui rd imm) (wordU imm rd 0b0110111)
  | auipc {rd imm} : Encodes x (.auipc rd imm) (wordU imm rd 0b0010111)
  | jal {rd offset} (heven : offset.getLsbD 0 = false) :
    Encodes x (.jal rd offset) (wordJ offset rd 0b1101111)
  | jalr {rd rs1 offset} : Encodes x (.jalr rd rs1 offset) (wordI offset rs1 0b000 rd 0b1100111)
  | branch {condition rs1 rs2 offset funct3} (hline : branch? funct3 = some condition)
    (heven : offset.getLsbD 0 = false) :
    Encodes x (.branch condition rs1 rs2 offset) (wordB offset rs2 rs1 funct3 0b1100011)
  | load {width signed rd rs1 offset funct3} (hline : load? x funct3 = some (width, signed)) :
    Encodes x (.load width signed rd rs1 offset) (wordI offset rs1 funct3 rd 0b0000011)
  | store {width rs1 rs2 offset funct3} (hline : store? x funct3 = some width) :
    Encodes x (.store width rs1 rs2 offset) (wordS offset rs2 rs1 funct3 0b0100011)
  | immediate {op word rd rs1 imm funct3} (hword : word = true → x = .rv64)
    (hline : immediate? word funct3 = some op) :
    Encodes x (.immediate op word rd rs1 imm)
      (wordI imm rs1 funct3 rd (immediateOpcode word))
  | shift {op word rd rs1 amount funct3} {code : BitVec 6} (hword : word = true → x = .rv64)
    (hline : shift? (word || x = .rv32) funct3 (code ++ amount.extractLsb' 5 1) = some op) :
    Encodes x (.shift op word rd rs1 amount)
      (wordI (code ++ amount) rs1 funct3 rd (immediateOpcode word))
  | register {op word rd rs1 rs2 funct3 funct7} (hword : word = true → x = .rv64)
    (hline : register? word funct7 funct3 = some op) :
    Encodes x (.register op word rd rs1 rs2)
      (wordR funct7 rs2 rs1 funct3 rd (registerOpcode word))
  | fence {imm rs1 funct3 rd} (hline : funct3 = 0 ∨ funct3 = 1) :
    Encodes x .fence (wordI imm rs1 funct3 rd 0b0001111)
  | ecall : Encodes x .ecall 0x00000073
  | ebreak : Encodes x .ebreak 0x00100073

variable {x : Xlen} {j : Instr} {v w : BitVec 32}

theorem Encodes.of_eq (h : Encodes x j v) (hw : v = w) : Encodes x j w := hw ▸ h

/-! ### Reading a word -/

theorem shift_cuts (w : BitVec 32) : w.extractLsb' 26 6 ++ (w.extractLsb' 20 6).extractLsb' 5 1 =
    w.extractLsb' 25 7 := by
  apply BitVec.eq_of_getLsbD_eq
  intro i hi
  simp only [BitVec.getLsbD_append, BitVec.getLsbD_extractLsb']
  interval_cases i <;> simp

theorem encodes_onImmediate (word : Bool) (hword : word = true → x = .rv64)
    (hopcode : w.extractLsb' 0 7 = immediateOpcode word)
    (h : ((immediate? word (w.extractLsb' 12 3)).map fun op =>
          Instr.immediate op word (w.extractLsb' 7 5) (w.extractLsb' 15 5) (immI w)).or
        ((shift? (word || x = .rv32) (w.extractLsb' 12 3) (w.extractLsb' 25 7)).map fun op =>
          .shift op word (w.extractLsb' 7 5) (w.extractLsb' 15 5) (w.extractLsb' 20 6)) =
      some j) : Encodes x j w := by
  have hw := wordI_immI hopcode
  rcases Option.or_eq_some_iff.1 h with h | ⟨-, h⟩
  · obtain ⟨op, hline, rfl⟩ := Option.map_eq_some_iff.1 h
    exact (Encodes.immediate hword hline).of_eq hw
  · obtain ⟨op, hline, rfl⟩ := Option.map_eq_some_iff.1 h
    rw [← shift_cuts] at hline
    have himm : w.extractLsb' 26 6 ++ w.extractLsb' 20 6 = immI w :=
      BitVec.extractLsb'_append_extractLsb'_eq_extractLsb' rfl
    rw [← himm] at hw
    exact (Encodes.shift hword hline).of_eq hw

theorem encodes_onRegisters (word : Bool) (hword : word = true → x = .rv64)
    (hopcode : w.extractLsb' 0 7 = registerOpcode word)
    (h : ((register? word (w.extractLsb' 25 7) (w.extractLsb' 12 3)).map fun op =>
        Instr.register op word (w.extractLsb' 7 5) (w.extractLsb' 15 5) (w.extractLsb' 20 5)) =
      some j) : Encodes x j w := by
  have hw := wordR_cuts w
  obtain ⟨op, hline, rfl⟩ := Option.map_eq_some_iff.1 h
  rw [hopcode] at hw
  exact (Encodes.register hword hline).of_eq hw

theorem encodes_of_ofWord? (h : Instr.ofWord? x w = some j) : Encodes x j w := by
  unfold Instr.ofWord? at h
  dsimp only at h
  -- One case for each line of the reader; its opcode goes into the word.
  split at h
  case h_1 hopcode =>
    cases h
    exact Encodes.lui.of_eq (wordU_immU hopcode)
  case h_2 hopcode =>
    cases h
    exact Encodes.auipc.of_eq (wordU_immU hopcode)
  case h_3 hopcode =>
    cases h
    exact (Encodes.jal (even_immJ w)).of_eq (wordJ_immJ hopcode)
  case h_4 hopcode =>
    split at h
    case isTrue hcode =>
      cases h
      have hw := wordI_immI hopcode
      rw [hcode] at hw
      exact Encodes.jalr.of_eq hw
    case isFalse => cases h
  case h_5 hopcode =>
    obtain ⟨condition, hline, rfl⟩ := Option.map_eq_some_iff.1 h
    exact (Encodes.branch hline (even_immB w)).of_eq (wordB_immB hopcode)
  case h_6 hopcode =>
    obtain ⟨kind, hline, rfl⟩ := Option.map_eq_some_iff.1 h
    exact (Encodes.load hline).of_eq (wordI_immI hopcode)
  case h_7 hopcode =>
    obtain ⟨width, hline, rfl⟩ := Option.map_eq_some_iff.1 h
    exact (Encodes.store hline).of_eq (wordS_immS hopcode)
  case h_8 hopcode => exact encodes_onImmediate false nofun hopcode h
  case h_9 hopcode => exact encodes_onImmediate true (fun _ => rfl) hopcode h
  case h_10 hopcode => exact encodes_onRegisters false nofun hopcode h
  case h_11 hopcode => exact encodes_onRegisters true (fun _ => rfl) hopcode h
  case h_12 hopcode =>
    split at h
    case isTrue hcode =>
      cases h
      exact (Encodes.fence hcode).of_eq (wordI_immI hopcode)
    case isFalse => cases h
  case h_13 =>
    split at h
    case isTrue hw =>
      cases h
      exact Encodes.ecall.of_eq hw.symm
    case isFalse =>
      split at h
      case isTrue hw =>
        cases h
        exact Encodes.ebreak.of_eq hw.symm
      case isFalse => cases h
  case h_14 => cases h

/-! ### Words read back -/

/-- The shifts have function codes of their own. -/
theorem immediate?_of_shift? {narrow word : Bool} {funct3 : BitVec 3} {funct7 : BitVec 7}
    {op : AluOp} (h : shift? narrow funct3 funct7 = some op) : immediate? word funct3 = none := by
  have hcode : funct3 = 0b001 ∨ funct3 = 0b101 := by
    unfold shift? at h
    split at h
    · cases h
    · split at h
      · exact .inl rfl
      · exact .inr rfl
      · exact .inr rfl
      · cases h
  rcases hcode with rfl | rfl <;> cases word <;> rfl

theorem amount_wordI (code amount : BitVec 6) (rs1 : Register) (funct3 : BitVec 3)
    (rd : Register) (opcode : BitVec 7) :
    (wordI (code ++ amount) rs1 funct3 rd opcode).extractLsb' 20 6 = amount := by
  rw [wordI]
  iterate 4 rw [BitVec.extractLsb'_append_eq_of_le (by decide)]
  exact BitVec.extractLsb'_append_eq_right

theorem selector_append (code amount : BitVec 6) :
    (code ++ amount).extractLsb' 5 7 = code ++ amount.extractLsb' 5 1 := by
  apply BitVec.eq_of_getLsbD_eq
  intro i hi
  simp only [BitVec.getLsbD_append, BitVec.getLsbD_extractLsb']
  interval_cases i <;> simp

theorem ofWord?_of_encodes (h : Encodes x j w) : Instr.ofWord? x w = some j := by
  unfold Instr.ofWord?
  cases h with
  | lui =>
    simp only [cuts_wordU, immU_wordU]
    rfl
  | auipc =>
    simp only [cuts_wordU, immU_wordU]
    rfl
  | jal heven =>
    simp only [cuts_wordJ, immJ_wordJ _ _ heven]
    rfl
  | jalr =>
    simp only [cuts_wordI, immI_wordI]
    rfl
  | branch hline heven =>
    simp only [cuts_wordB, immB_wordB _ _ _ _ heven, hline]
    rfl
  | load hline =>
    simp only [cuts_wordI, immI_wordI, hline]
    rfl
  | store hline =>
    simp only [cuts_wordS, immS_wordS, hline]
    rfl
  | @immediate op word rd rs1 imm funct3 hword hline =>
    simp only [cuts_wordI, immI_wordI]
    cases word with
    | false =>
      rw [hline]
      rfl
    | true =>
      obtain rfl := hword rfl
      rw [hline]
      rfl
  | @shift op word rd rs1 amount funct3 code hword hline =>
    have himmediate : immediate? word funct3 = none := immediate?_of_shift? hline
    simp only [cuts_wordI, selector_append, amount_wordI]
    cases word with
    | false =>
      rw [himmediate, hline]
      rfl
    | true =>
      obtain rfl := hword rfl
      rw [himmediate, hline]
      rfl
  | @register op word rd rs1 rs2 funct3 funct7 hword hline =>
    simp only [opcode_wordR, rd_wordR, funct3_wordR, rs1_wordR, rs2_wordR, funct7_wordR]
    cases word with
    | false =>
      rw [hline]
      rfl
    | true =>
      obtain rfl := hword rfl
      rw [hline]
      rfl
  | fence hline =>
    simp only [cuts_wordI]
    exact if_pos hline
  | ecall => rfl
  | ebreak => rfl

/-- Reading a word finds the instruction that it is a word of. -/
theorem Instr.ofWord?_eq_some_iff : Instr.ofWord? x w = some j ↔ Encodes x j w :=
  ⟨encodes_of_ofWord?, ofWord?_of_encodes⟩

/-! ### Widths -/

theorem load?_widen {funct3 : BitVec 3} {kind : AccessWidth × Bool}
    (h : load? .rv32 funct3 = some kind) : load? .rv64 funct3 = some kind := by
  revert funct3 kind
  decide

theorem store?_widen {funct3 : BitVec 3} {width : AccessWidth}
    (h : store? .rv32 funct3 = some width) : store? .rv64 funct3 = some width := by
  revert funct3 width
  decide

theorem shift?_widen {narrow : Bool} {funct3 : BitVec 3} {funct7 : BitVec 7} {op : AluOp}
    (h : shift? narrow funct3 funct7 = some op) : shift? false funct3 funct7 = some op := by
  unfold shift? at h
  split at h
  · cases h
  · exact h

/-- The words of a narrow hart are words of a wide one. -/
theorem Encodes.widen (h : Encodes .rv32 j w) : Encodes .rv64 j w := by
  cases h with
  | lui => exact .lui
  | auipc => exact .auipc
  | jal heven => exact .jal heven
  | jalr => exact .jalr
  | branch hline heven => exact .branch hline heven
  | load hline => exact .load (load?_widen hline)
  | store hline => exact .store (store?_widen hline)
  | immediate hword hline => exact .immediate (fun _ => rfl) hline
  | @shift op word rd rs1 amount funct3 code hword hline =>
    -- A W-suffix form keeps its five-bit amounts, and it is not a form of a narrow hart.
    cases word with
    | false => exact .shift nofun (shift?_widen hline)
    | true => cases hword rfl
  | register hword hline => exact .register (fun _ => rfl) hline
  | fence hline => exact .fence hline
  | ecall => exact .ecall
  | ebreak => exact .ebreak

end Hart.Isa
