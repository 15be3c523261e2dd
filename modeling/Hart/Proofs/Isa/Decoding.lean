/-
The decoder of the machine against the listings of the instruction set.

`Corresponds x i j` says that an instruction `i` of the machine stands for the
instruction `j` of the set: the same registers and operation, with the immediate
sign-extended to a slot.

* `ofWord?_rel` — a word that one decoder refuses is refused by the other, and else
  the two answers correspond.

Design notes: the tables of the two decoders are compared entry by entry; what
remains is to follow the opcode.
-/
import Hart.Proofs.Isa.Arithmetic
import Hart.Proofs.Isa.Immediates

namespace Hart.Isa

/-- An instruction of a machine of width `x` stands for one of the set.  The machine
keeps the function code of a shift in its immediate, above the amount. -/
inductive Corresponds (x : Xlen) : Instruction → Instr → Prop where
  | lui {rd imm} : Corresponds x (.lui rd ((imm ++ 0#12).signExtend 64)) (.lui rd imm)
  | auipc {rd imm} : Corresponds x (.auipc rd ((imm ++ 0#12).signExtend 64)) (.auipc rd imm)
  | jal {rd offset} : Corresponds x (.jal rd (offset.signExtend 64)) (.jal rd offset)
  | jalr {rd rs1 offset} :
    Corresponds x (.jalr rd rs1 (offset.signExtend 64)) (.jalr rd rs1 offset)
  | branch {condition rs1 rs2 offset} :
    Corresponds x (.branch condition rs1 rs2 (offset.signExtend 64))
      (.branch condition rs1 rs2 offset)
  | load {width signed rd rs1 offset} :
    Corresponds x (.load width signed rd rs1 (offset.signExtend 64))
      (.load width signed rd rs1 offset)
  | store {width rs1 rs2 offset} (hwidth : width.bytes ≤ x.bytes) :
    Corresponds x (.store width rs1 rs2 (offset.signExtend 64)) (.store width rs1 rs2 offset)
  | immediate {op word rd rs1 imm} :
    Corresponds x (.opImm op word rd rs1 (imm.signExtend 64)) (.immediate op word rd rs1 imm)
  | shift {op word rd rs1 amount} {code : BitVec 6} (hop : IsShift op) :
    Corresponds x (.opImm op word rd rs1 ((code ++ amount).signExtend 64))
      (.shift op word rd rs1 amount)
  | register {op word rd rs1 rs2} :
    Corresponds x (.op op word rd rs1 rs2) (.register op word rd rs1 rs2)
  | fence : Corresponds x .fence .fence
  | ecall : Corresponds x .ecall .ecall
  | ebreak : Corresponds x .ebreak .ebreak

/-! ### Tables -/

theorem branchCondition?_eq (funct3 : BitVec 3) :
    Instruction.branchCondition? funct3 = branch? funct3 := by
  revert funct3
  decide

theorem loadKind?_eq (x : Xlen) (funct3 : BitVec 3) :
    Instruction.loadKind? x funct3 = load? x funct3 := by
  revert funct3
  cases x <;> decide

theorem storeWidth?_eq (x : Xlen) (funct3 : BitVec 3) :
    Instruction.storeWidth? x funct3 = store? x funct3 := by
  revert funct3
  cases x <;> decide

theorem registerOp?_eq (word : Bool) (funct3 : BitVec 3) (funct7 : BitVec 7) :
    Instruction.registerOp? word funct3 funct7 = register? word funct7 funct3 := by
  revert funct7 funct3
  cases word <;> decide +kernel

theorem immediateOp?_eq (x : Xlen) (word : Bool) (funct3 : BitVec 3) (funct7 : BitVec 7) :
    Instruction.immediateOp? x word funct3 funct7 =
      (immediate? word funct3).or (shift? (word || x = .rv32) funct3 funct7) := by
  revert funct7 funct3
  cases x <;> cases word <;> decide +kernel

theorem shift?_isShift {narrow : Bool} {funct3 : BitVec 3} {funct7 : BitVec 7} {op : AluOp}
    (h : shift? narrow funct3 funct7 = some op) : IsShift op := by
  unfold shift? at h
  split at h
  · cases h
  · split at h
    · exact .inl (Option.some.inj h).symm
    · exact .inr (.inl (Option.some.inj h).symm)
    · exact .inr (.inr (Option.some.inj h).symm)
    · cases h

theorem store?_bytes_le {x : Xlen} {funct3 : BitVec 3} {width : AccessWidth}
    (h : store? x funct3 = some width) : width.bytes ≤ x.bytes := by
  unfold store? at h
  split at h <;> cases h
  · cases x <;> decide
  · cases x <;> decide
  · cases x <;> decide
  · decide

theorem immI_eq_append (w : BitVec 32) : immI w = w.extractLsb' 26 6 ++ w.extractLsb' 20 6 := by
  show w.extractLsb' 20 (6 + 6) = _
  exact (BitVec.extractLsb'_append_extractLsb'_eq_extractLsb' rfl).symm

/-! ### Answers -/

variable {x : Xlen} {α : Type} {o o' : Option Instruction} {p p' : Option Instr}

theorem rel_map {q : Option α} {f : α → Instruction} {g : α → Instr}
    (h : ∀ v, q = some v → Corresponds x (f v) (g v)) :
    Option.Rel (Corresponds x) (q.map f) (q.map g) := by
  cases q with
  | none => exact .none
  | some v => exact .some (h v rfl)

theorem rel_or (h : Option.Rel (Corresponds x) o p) (h' : Option.Rel (Corresponds x) o' p') :
    Option.Rel (Corresponds x) (o.or o') (p.or p') := by
  cases h with
  | none => exact h'
  | some hcorresponds => exact .some hcorresponds

theorem rel_ite {c : Prop} [Decidable c] (h : Option.Rel (Corresponds x) o p)
    (h' : Option.Rel (Corresponds x) o' p') :
    Option.Rel (Corresponds x) (if c then o else o') (if c then p else p') := by
  by_cases hc : c
  · rwa [if_pos hc, if_pos hc]
  · rwa [if_neg hc, if_neg hc]

theorem rel_onImmediate (x : Xlen) (w : BitVec 32) (word : Bool) (rd rs1 : Register)
    (funct3 : BitVec 3) (funct7 : BitVec 7) :
    Option.Rel (Corresponds x)
      ((Instruction.immediateOp? x word funct3 funct7).map
        (.opImm · word rd rs1 ((immI w).signExtend 64)))
      (((immediate? word funct3).map fun op => .immediate op word rd rs1 (immI w)).or
        ((shift? (word || x = .rv32) funct3 funct7).map fun op =>
          .shift op word rd rs1 (w.extractLsb' 20 6))) := by
  rw [immediateOp?_eq, Option.map_or]
  refine rel_or (rel_map fun op _ => .immediate) (rel_map fun op hop => ?_)
  rw [immI_eq_append]
  exact .shift (shift?_isShift hop)

theorem rel_onRegisters (x : Xlen) (word : Bool) (rd rs1 rs2 : Register) (funct3 : BitVec 3)
    (funct7 : BitVec 7) :
    Option.Rel (Corresponds x)
      ((Instruction.registerOp? word funct3 funct7).map (.op · word rd rs1 rs2))
      ((register? word funct7 funct3).map fun op => .register op word rd rs1 rs2) := by
  rw [registerOp?_eq]
  exact rel_map fun op _ => .register

/-- The two decoders accept the same words, and read the same instruction off each. -/
theorem ofWord?_rel (x : Xlen) (w : BitVec 32) :
    Option.Rel (Corresponds x) (Instruction.ofWord? x w) (Instr.ofWord? x w) := by
  unfold Instruction.ofWord? Instr.ofWord?
  simp only [Fields.ofWord, ImmediateFormat.read_eq_drawn, branchCondition?_eq, loadKind?_eq,
    storeWidth?_eq]
  generalize w.extractLsb' 0 7 = b
  cases hb : Opcode.ofBits? b with
  | none =>
    -- No line of the listings has an opcode that the machine does not know.
    show Option.Rel (Corresponds x) none _
    split
    case h_14 => exact .none
    all_goals exact absurd hb (by decide)
  | some o =>
    -- The opcode selects the lines, and with it the format of the immediate.
    obtain rfl := Opcode.bits_of_ofBits? hb
    cases o with
    | lui => exact .some .lui
    | auipc => exact .some .auipc
    | jal => exact .some .jal
    | jalr => exact rel_ite (.some .jalr) .none
    | branch => exact rel_map fun condition _ => .branch
    | load => exact rel_map fun kind _ => .load
    | store => exact rel_map fun width hwidth => .store (store?_bytes_le hwidth)
    | opImm => exact rel_onImmediate x w false _ _ _ _
    | opImm32 =>
      cases x with
      | rv32 => exact .none
      | rv64 => exact rel_onImmediate .rv64 w true _ _ _ _
    | op => exact rel_onRegisters x false _ _ _ _ _
    | op32 =>
      cases x with
      | rv32 => exact .none
      | rv64 => exact rel_onRegisters .rv64 true _ _ _ _ _
    | miscMem => exact rel_ite (.some .fence) .none
    | system => exact rel_ite (.some .ecall) (rel_ite (.some .ebreak) .none)

end Hart.Isa
