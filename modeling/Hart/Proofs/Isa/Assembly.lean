/-
Assembly text against control signals.

`Signals.assembly` writes the text that control signals and fields call for.  A
mnemonic is the name of an operation with the marks of its form: `i` for an immediate,
`u` for unsigned numbers, `w` for the low halves of registers.

* `Disassembly.text?_of_ofWord?` — the disassembler writes an accepted word so;
* `Disassembly.text?_eq` — it writes no other word, unless that has the form of an
  immediate shift;
* `Disassembly.assembly_shiftWord` — a word of that form is written as the shift whose
  selector bits are in order.

Design notes: the disassembler and the decoder follow the same opcodes, so their tables
are compared line by line.  The shifts by an immediate stand apart, since there the
disassembler looks at one selector bit where the decoder looks at all.
-/
import Hart.Instruction.Disassembly
import Hart.Proofs.Isa.Datapath
import Hart.Proofs.Text.Lines

namespace Hart

open Text (hex line)

/-! ### Mnemonics -/

/-- The two letters of a condition, and the mark of the unsigned orders. -/
def BranchCondition.letters : BranchCondition → String
  | eq => "eq"
  | ne => "ne"
  | lt => "lt"
  | ge => "ge"
  | ltu => "ltu"
  | geu => "geu"

def AccessWidth.letter : AccessWidth → String
  | byte => "b"
  | half => "h"
  | word => "w"
  | double => "d"

/-- The name of an operation without the mark of an unsigned one. -/
def AluOp.root : AluOp → String
  | add => "add"
  | sub => "sub"
  | sll => "sll"
  | slt | sltu => "slt"
  | xor => "xor"
  | srl => "srl"
  | sra => "sra"
  | or => "or"
  | and => "and"
  | mul => "mul"
  | mulh | mulhu => "mulh"
  | mulhsu => "mulhs"
  | div | divu => "div"
  | rem | remu => "rem"

/-- The operation reads a number as unsigned that its namesake reads as signed. -/
def AluOp.isUnsigned : AluOp → Bool
  | sltu | mulhsu | mulhu | divu | remu => true
  | _ => false

namespace Signals

/-- A letter of a mnemonic that marks a form. -/
def mark (letter : String) (present : Bool) : String := if present then letter else ""

/-- The mnemonic of what signals select.  The two fences have the same signals. -/
def mnemonic (s : Signals) (funct3 : BitVec 3) : String :=
  match s.system, s.jump, s.branch, s.width with
  | some .ecall, _, _, _ => "ecall"
  | some .ebreak, _, _, _ => "ebreak"
  | some .fence, _, _, _ => if funct3 = 0 then "fence" else "fence.i"
  | none, some .jal, _, _ => "jal"
  | none, some .jalr, _, _ => "jalr"
  | none, none, some condition, _ => "b" ++ condition.letters
  | none, none, none, some width =>
    if s.memRead then "l" ++ width.letter ++ mark "u" (!s.signedLoad) else "s" ++ width.letter
  | none, none, none, none =>
    match s.first with
    | .zero => "lui"
    | .pc => "auipc"
    | .reg1 =>
      s.alu.root ++ mark "i" (s.second = .imm) ++ mark "u" s.alu.isUnsigned ++ mark "w" s.wordOp

/-- The amount of an immediate shift. -/
def amount (s : Signals) (f : Fields) : BitVec 6 :=
  if s.wordOp then (f.imm.setWidth 5).setWidth 6 else f.imm.setWidth 6

/-- The operands of what signals select. -/
def operands (s : Signals) (f : Fields) : List String :=
  let offset := toString f.imm.toInt ++ "(" ++ f.rs1.name ++ ")"
  match s.system, s.jump, s.branch, s.width with
  | some _, _, _, _ => []
  | none, some .jal, _, _ => [f.rd.name, toString f.imm.toInt]
  | none, some .jalr, _, _ => [f.rd.name, offset]
  | none, none, some _, _ => [f.rs1.name, f.rs2.name, toString f.imm.toInt]
  | none, none, none, some _ => [if s.memRead then f.rd.name else f.rs2.name, offset]
  | none, none, none, none =>
    match s.first, s.second with
    | .reg1, .reg2 => [f.rd.name, f.rs1.name, f.rs2.name]
    | .reg1, .imm =>
      let number : Int := if s.alu.unit = .shifts then (s.amount f).toNat else f.imm.toInt
      [f.rd.name, f.rs1.name, toString number]
    | _, _ => [f.rd.name, hex (f.imm.extractLsb' 12 20).toNat]

/-- The signals of a register-immediate instruction. -/
def immediate (op : AluOp) (word : Bool) : Signals :=
  { regWrite := true, wordOp := word, alu := op }

theorem operands_shift {op : AluOp} (hop : op.unit = .shifts) (word : Bool) (f : Fields) :
    (immediate op word).operands f =
      [f.rd.name, f.rs1.name, toString (((immediate op word).amount f).toNat : Int)] :=
  congrArg (fun n : Int => [f.rd.name, f.rs1.name, toString n]) (if_pos hop)

theorem amount_toNat (op : AluOp) (word : Bool) (f : Fields) :
    (((immediate op word).amount f).toNat : Int) = f.imm.toNat % (if word then 32 else 64) := by
  cases word with
  | false => simp [amount, immediate]
  | true =>
    simp [amount, immediate]
    omega

/-- The text of what signals and fields select. -/
def assembly (s : Signals) (f : Fields) : String :=
  line (s.mnemonic f.funct3) (s.operands f)

end Signals

/-! ### The text of accepted words -/

namespace Disassembly

open Isa
open Signals (mark)

/-- The form of an immediate shift, whatever its selector bits. -/
def ShiftForm (f : Fields) : Prop :=
  (f.opcode = 0b0010011 ∨ f.opcode = 0b0011011) ∧ (f.funct3 = 0b001 ∨ f.funct3 = 0b101)

theorem branchMnemonic?_eq (f : Fields) :
    branchMnemonic? f = (Instruction.branchCondition? f.funct3).map ("b" ++ ·.letters) := by
  have htable : ∀ c : BitVec 3, branchMnemonic? { (default : Fields) with funct3 := c } =
      (Instruction.branchCondition? c).map ("b" ++ ·.letters) := by decide
  exact htable f.funct3

theorem loadMnemonic?_eq (f : Fields) :
    loadMnemonic? f = (Instruction.loadKind? .rv64 f.funct3).map fun (width, signed) =>
      "l" ++ width.letter ++ mark "u" (!signed) := by
  have htable : ∀ c : BitVec 3, loadMnemonic? { (default : Fields) with funct3 := c } =
      (Instruction.loadKind? .rv64 c).map fun (width, signed) =>
        "l" ++ width.letter ++ mark "u" (!signed) := by decide
  exact htable f.funct3

theorem storeMnemonic?_eq (f : Fields) :
    storeMnemonic? f = (Instruction.storeWidth? .rv64 f.funct3).map ("s" ++ ·.letter) := by
  have htable : ∀ c : BitVec 3, storeMnemonic? { (default : Fields) with funct3 := c } =
      (Instruction.storeWidth? .rv64 c).map ("s" ++ ·.letter) := by decide
  exact htable f.funct3

theorem registerMnemonic?_eq (f : Fields) (word : Bool) :
    registerMnemonic? f word = (Instruction.registerOp? word f.funct3 f.funct7).map fun op =>
      op.root ++ mark "u" op.isUnsigned := by
  have htable : ∀ (c : BitVec 3) (d : BitVec 7),
      registerMnemonic? { (default : Fields) with funct3 := c, funct7 := d } word =
        (Instruction.registerOp? word c d).map fun op => op.root ++ mark "u" op.isUnsigned := by
    cases word <;> decide +kernel
  exact htable f.funct3 f.funct7

theorem immediateText?_eq {f : Fields} (word : Bool) (hleft : f.funct3 ≠ 0b001)
    (hright : f.funct3 ≠ 0b101) :
    immediateText? f word = (Instruction.immediateOp? .rv64 word f.funct3 f.funct7).map fun op =>
      (Signals.immediate op word).assembly f := by
  have hcode : ∀ c : BitVec 3, c ≠ 0b001 → c ≠ 0b101 →
      c = 0b000 ∨ c = 0b010 ∨ c = 0b011 ∨ c = 0b100 ∨ c = 0b110 ∨ c = 0b111 := by decide
  rcases hcode f.funct3 hleft hright with h | h | h | h | h | h <;> cases word <;>
    (simp only [immediateText?, immediateMnemonic?, Instruction.immediateOp?, h]; rfl)

/-- The shift that fields in that form are written as. -/
def shiftOp (f : Fields) : AluOp :=
  if f.funct3 = 0b001 then .sll else if f.funct7.getLsbD 5 then .sra else .srl

theorem shiftOp_cases {f : Fields} (h : f.funct3 = 0b001 ∨ f.funct3 = 0b101) :
    (shiftOp f = .sll ∧ f.funct3 = 0b001) ∨ (shiftOp f = .srl ∧ f.funct3 = 0b101) ∨
      (shiftOp f = .sra ∧ f.funct3 = 0b101) := by
  unfold shiftOp
  rcases h with h | h
  · exact .inl ⟨if_pos h, h⟩
  · rw [h, if_neg (by decide)]
    cases f.funct7.getLsbD 5
    · exact .inr (.inl ⟨rfl, rfl⟩)
    · exact .inr (.inr ⟨rfl, rfl⟩)

theorem unit_shiftOp (f : Fields) : (shiftOp f).unit = .shifts := by
  unfold shiftOp
  split
  · rfl
  · split <;> rfl

theorem immediateText?_shift {f : Fields} (word : Bool)
    (h : f.funct3 = 0b001 ∨ f.funct3 = 0b101) :
    immediateText? f word = some ((Signals.immediate (shiftOp f) word).assembly f) := by
  rw [Signals.assembly, Signals.operands_shift (unit_shiftOp f), Signals.amount_toNat]
  rcases h with h | h <;> cases word <;> cases hbit : f.funct7.getLsbD 5 <;>
    (simp only [immediateText?, immediateMnemonic?, shiftOp, h, hbit]; rfl)

/-- Where the selector bits are in order, the one that the text asks for tells the shift. -/
theorem shiftOp_eq {f : Fields} {word : Bool} {op : AluOp}
    (h : f.funct3 = 0b001 ∨ f.funct3 = 0b101)
    (hop : Instruction.immediateOp? .rv64 word f.funct3 f.funct7 = some op) : op = shiftOp f := by
  have htable : ∀ d : BitVec 7,
      Instruction.immediateOp? .rv64 word 0b001 d ∈ [none, some .sll] ∧
      Instruction.immediateOp? .rv64 word 0b101 d ∈
        [none, some (if d.getLsbD 5 then .sra else .srl)] := by
    cases word <;> decide +kernel
  obtain ⟨hleft, hright⟩ := htable f.funct7
  unfold shiftOp
  rcases h with h | h
  · rw [h] at hop ⊢
    rw [hop] at hleft
    simpa using hleft
  · rw [h] at hop ⊢
    rw [hop] at hright
    simpa using hright

theorem registerText?_eq (f : Fields) (word : Bool) :
    registerText? f word = (Instruction.registerOp? word f.funct3 f.funct7).map fun op =>
      (Instruction.op op word f.rd f.rs1 f.rs2).signals.assembly f := by
  rw [registerText?, registerMnemonic?_eq, Option.map_map]
  refine congrArg (Option.map · _) (funext fun op => ?_)
  show _ = line (op.root ++ "" ++ mark "u" op.isUnsigned ++ mark "w" word)
    [f.rd.name, f.rs1.name, f.rs2.name]
  rw [String.append_empty]
  rfl

theorem text?_eq {w : BitVec 32} (h : ¬ ShiftForm (Fields.ofWord w)) :
    text? w = (Instruction.ofWord? .rv64 w).map fun i =>
      i.signals.assembly (Fields.ofWord w) := by
  unfold text? Instruction.ofWord?
  dsimp only
  cases hopcode : Opcode.ofBits? (Fields.ofWord w).opcode with
  | none => rfl
  | some o =>
    have hbits : o.bits = w.extractLsb' 0 7 := Opcode.bits_of_ofBits? hopcode
    dsimp only [bind, Option.bind_some]
    -- Under each opcode the two tables are one, and the texts differ in how they are put together.
    cases o with
    | lui => exact congrArg some (Text.line_pair (m := "lui") rfl _ _).symm
    | auipc => exact congrArg some (Text.line_pair (m := "auipc") rfl _ _).symm
    | jal => exact congrArg some (Text.line_pair (m := "jal") rfl _ _).symm
    | jalr =>
      dsimp only
      split
      · exact congrArg some (Text.line_pair (m := "jalr") rfl _ _).symm
      · rfl
    | branch =>
      dsimp only
      rw [branchMnemonic?_eq, Option.map_map, Option.map_map]
      rfl
    | load =>
      dsimp only
      rw [loadMnemonic?_eq, Option.map_map, Option.map_map]
      exact congrArg (Option.map · _) (funext fun kind => (Text.line_pair rfl _ _).symm)
    | store =>
      dsimp only
      rw [storeMnemonic?_eq, Option.map_map, Option.map_map]
      exact congrArg (Option.map · _) (funext fun width => (Text.line_pair rfl _ _).symm)
    | opImm =>
      dsimp only
      rw [immediateText?_eq, Option.map_map]
      · rfl
      · exact fun hleft => h ⟨.inl hbits.symm, .inl hleft⟩
      · exact fun hright => h ⟨.inl hbits.symm, .inr hright⟩
    | opImm32 =>
      dsimp only
      rw [immediateText?_eq, if_pos rfl, Option.map_map]
      · rfl
      · exact fun hleft => h ⟨.inr hbits.symm, .inl hleft⟩
      · exact fun hright => h ⟨.inr hbits.symm, .inr hright⟩
    | op =>
      dsimp only
      rw [registerText?_eq, Option.map_map]
      rfl
    | op32 =>
      dsimp only
      rw [registerText?_eq, if_pos rfl, Option.map_map]
      rfl
    | miscMem =>
      dsimp only
      split
      case h_1 hcode =>
        have hzero : (Fields.ofWord w).funct3 = 0 := BitVec.eq_of_toNat_eq hcode
        rw [if_pos (.inl hzero)]
        exact congrArg (fun m => some (line m [])) (if_pos hzero).symm
      case h_2 hcode =>
        have hone : (Fields.ofWord w).funct3 = 1 := BitVec.eq_of_toNat_eq hcode
        have hzero : (Fields.ofWord w).funct3 ≠ 0 := by
          rw [hone]
          decide
        rw [if_pos (.inr hone)]
        exact congrArg (fun m => some (line m [])) (if_neg hzero).symm
      case h_3 hzero hone =>
        rw [if_neg]
        · rfl
        · rintro (hcode | hcode)
          · exact hzero (congrArg BitVec.toNat hcode)
          · exact hone (congrArg BitVec.toNat hcode)
    | system =>
      dsimp only
      split
      · rfl
      · split <;> rfl

/-- The signals that fields in the form of a shift are written with. -/
def shiftSignals (f : Fields) : Signals := Signals.immediate (shiftOp f) (f.opcode = 0b0011011)

theorem text?_shiftForm {w : BitVec 32} (h : ShiftForm (Fields.ofWord w)) :
    text? w = some ((shiftSignals (Fields.ofWord w)).assembly (Fields.ofWord w)) := by
  rw [shiftSignals, ← immediateText?_shift _ h.2, text?]
  rcases h.1 with hopcode | hopcode <;> (rw [hopcode]; rfl)

theorem ofWord?_shiftForm {w : BitVec 32} (h : ShiftForm (Fields.ofWord w)) :
    let f := Fields.ofWord w
    let word : Bool := f.opcode = 0b0011011
    Instruction.ofWord? .rv64 w =
      (Instruction.immediateOp? .rv64 word f.funct3 f.funct7).map
        (.opImm · word f.rd f.rs1 f.imm) := by
  unfold Instruction.ofWord?
  dsimp only
  rcases h.1 with hopcode | hopcode <;> (rw [hopcode]; rfl)

/-- An accepted word is written as its signals and fields. -/
theorem text?_of_ofWord? {w : BitVec 32} {i : Instruction}
    (h : Instruction.ofWord? .rv64 w = some i) :
    text? w = some (i.signals.assembly (Fields.ofWord w)) := by
  by_cases hform : ShiftForm (Fields.ofWord w)
  · rw [ofWord?_shiftForm hform] at h
    obtain ⟨op, hop, rfl⟩ := Option.map_eq_some_iff.1 h
    rw [text?_shiftForm hform, shiftOp_eq hform.2 hop]
    rfl
  · rw [text?_eq hform, h]
    rfl

/-! ### Selector bits that the text leaves out -/

/-- The word of the shift that fields in that form are written as. -/
def shiftWord (f : Fields) : BitVec 32 :=
  let code : BitVec 6 := if shiftOp f = .sra then 0b010000 else 0
  wordI (code ++ (shiftSignals f).amount f) f.rs1 f.funct3 f.rd f.opcode

theorem setWidth_signExtend_append (code a : BitVec 6) :
    ((code ++ a).signExtend 64).setWidth 6 = a := by
  apply BitVec.eq_of_getLsbD_eq
  intro i hi
  have hi12 : i < 12 := by omega
  have hi64 : i < 64 := by omega
  simp only [BitVec.getLsbD_setWidth, BitVec.getLsbD_signExtend, BitVec.getLsbD_append, hi, hi12,
    hi64, decide_true, Bool.true_and, if_true]

theorem amount_top (op : AluOp) (f : Fields) :
    ((Signals.immediate op true).amount f).extractLsb' 5 1 = 0 := by
  apply BitVec.eq_of_getLsbD_eq
  intro i hi
  simp [Signals.amount, Signals.immediate]

theorem amount_congr {op : AluOp} {word : Bool} {f g : Fields}
    (h : g.imm.setWidth 6 = (Signals.immediate op word).amount f) :
    (Signals.immediate op word).amount g = (Signals.immediate op word).amount f := by
  cases word with
  | false => exact h
  | true =>
    have hfive : g.imm.setWidth 5 = f.imm.setWidth 5 := calc
      g.imm.setWidth 5 = (g.imm.setWidth 6).setWidth 5 :=
        (BitVec.setWidth_setWidth_of_le _ (by decide)).symm
      _ = ((f.imm.setWidth 5).setWidth 6).setWidth 5 := congrArg (BitVec.setWidth 5) h
      _ = f.imm.setWidth 5 := by
        rw [BitVec.setWidth_setWidth_of_le _ (by decide), BitVec.setWidth_eq]
    exact congrArg (BitVec.setWidth 6) hfive

theorem opcode_shiftForm {f : Fields} (h : ShiftForm f) :
    f.opcode = immediateOpcode (f.opcode = 0b0011011) := by
  rcases h.1 with hopcode | hopcode <;> (rw [hopcode]; rfl)

theorem encodes_shiftWord {f : Fields} (h : ShiftForm f) :
    Encodes .rv64
      (.shift (shiftOp f) (f.opcode = 0b0011011) f.rd f.rs1 ((shiftSignals f).amount f))
      (shiftWord f) := by
  have hopcode := opcode_shiftForm h
  -- A W-suffix form has five bits of amount.
  have htop : decide (f.opcode = 0b0011011) = true →
      ((shiftSignals f).amount f).extractLsb' 5 1 = 0 := by
    intro hword
    rw [shiftSignals, hword]
    exact amount_top ..
  rw [shiftWord]
  generalize (shiftSignals f).amount f = amount at htop ⊢
  generalize decide (f.opcode = 0b0011011) = word at htop hopcode ⊢
  rw [hopcode]
  refine .shift (fun _ => rfl) ?_
  -- What remains is the line of the listing, with the top bit of the amount in the selector.
  have htable : ∀ (word : Bool) (top : BitVec 1), (word = true → top = 0) →
      shift? (word || Xlen.rv64 = .rv32) 0b001 (0b000000#6 ++ top) = some .sll ∧
      shift? (word || Xlen.rv64 = .rv32) 0b101 (0b000000#6 ++ top) = some .srl ∧
      shift? (word || Xlen.rv64 = .rv32) 0b101 (0b010000#6 ++ top) = some .sra := by
    decide
  obtain ⟨hleft, hright, harithmetic⟩ := htable word _ htop
  rcases shiftOp_cases h.2 with ⟨hop, hcode⟩ | ⟨hop, hcode⟩ | ⟨hop, hcode⟩
  · rw [hop, hcode]
    exact hleft
  · rw [hop, hcode]
    exact hright
  · rw [hop, hcode]
    exact harithmetic

theorem assembly_shiftWord {f : Fields} (h : ShiftForm f) :
    (shiftSignals f).assembly (Fields.ofWord (shiftWord f)) = (shiftSignals f).assembly f := by
  have hformat : Format.ofOpcode f.opcode = .i := by
    rcases h.1 with hopcode | hopcode <;> (rw [hopcode]; rfl)
  obtain ⟨hrd, hcode, hrs1, himm⟩ : (Fields.ofWord (shiftWord f)).rd = f.rd ∧
      (Fields.ofWord (shiftWord f)).funct3 = f.funct3 ∧
      (Fields.ofWord (shiftWord f)).rs1 = f.rs1 ∧
      (Fields.ofWord (shiftWord f)).imm.setWidth 6 = (shiftSignals f).amount f := by
    rw [shiftWord, Fields.ofWord_wordI hformat]
    exact ⟨rfl, rfl, rfl, setWidth_signExtend_append ..⟩
  have hamount := amount_congr himm
  rw [Signals.assembly, Signals.assembly, shiftSignals, Signals.operands_shift (unit_shiftOp f),
    Signals.operands_shift (unit_shiftOp f), hamount, hrd, hrs1, hcode]

end Disassembly

end Hart
