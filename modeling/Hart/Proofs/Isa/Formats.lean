/-
Words of the six formats.

A word is six fields side by side, and the formats differ in how an immediate is
spread over the fields that they have no other use for:

* `Isa.wordR`, `wordI`, `wordS`, `wordB`, `wordU`, `wordJ` — the word of a format, as
  the instruction set draws it;
* `Fields.encode` — the word of given fields, in the format of their opcode;
* `Fields.encode_inverse` — cutting an encoded word gives the fields back, and encoding
  the cuts of any word gives the word back.

Design notes: cutting knows neither registers nor function codes that a format does
not have, so what comes back is compared on the fields of the format only
(`Format.SameFields`).
-/
import Mathlib.Tactic.IntervalCases
import Hart.Proofs.Isa.Immediates

namespace Hart

namespace Isa

/-! ### Layouts -/

/-- The format without an immediate. -/
def wordR (funct7 : BitVec 7) (rs2 rs1 : Register) (funct3 : BitVec 3) (rd : Register)
    (opcode : BitVec 7) : BitVec 32 :=
  funct7 ++ rs2 ++ rs1 ++ funct3 ++ rd ++ opcode

/-- `imm[11:0]` in front. -/
def wordI (imm : BitVec 12) (rs1 : Register) (funct3 : BitVec 3) (rd : Register)
    (opcode : BitVec 7) : BitVec 32 :=
  imm ++ rs1 ++ funct3 ++ rd ++ opcode

/-- `imm[11:5]` in front and `imm[4:0]` in the place of `rd`. -/
def wordS (imm : BitVec 12) (rs2 rs1 : Register) (funct3 : BitVec 3) (opcode : BitVec 7) :
    BitVec 32 :=
  wordR (imm.extractLsb' 5 7) rs2 rs1 funct3 (imm.extractLsb' 0 5) opcode

/-- `imm[12|10:5]` in front and `imm[4:1|11]` in the place of `rd`. -/
def wordB (imm : BitVec 13) (rs2 rs1 : Register) (funct3 : BitVec 3) (opcode : BitVec 7) :
    BitVec 32 :=
  wordR (imm.extractLsb' 12 1 ++ imm.extractLsb' 5 6) rs2 rs1 funct3
    (imm.extractLsb' 1 4 ++ imm.extractLsb' 11 1) opcode

/-- `imm[31:12]` in front. -/
def wordU (imm : BitVec 20) (rd : Register) (opcode : BitVec 7) : BitVec 32 :=
  imm ++ rd ++ opcode

/-- The order `imm[20|10:1|11|19:12]`. -/
def jumpOrder (imm : BitVec 21) : BitVec 20 :=
  imm.extractLsb' 20 1 ++ imm.extractLsb' 1 10 ++ imm.extractLsb' 11 1 ++ imm.extractLsb' 12 8

/-- `imm[20|10:1|11|19:12]` in front. -/
def wordJ (imm : BitVec 21) (rd : Register) (opcode : BitVec 7) : BitVec 32 :=
  wordU (jumpOrder imm) rd opcode

section Cuts

variable (funct7 : BitVec 7) (rs2 rs1 : Register) (funct3 : BitVec 3) (rd : Register)
  (opcode : BitVec 7)

/-! ### Cuts -/

@[simp] theorem opcode_wordR :
    (wordR funct7 rs2 rs1 funct3 rd opcode).extractLsb' 0 7 = opcode := by
  rw [wordR, BitVec.extractLsb'_append_eq_right]

@[simp] theorem rd_wordR : (wordR funct7 rs2 rs1 funct3 rd opcode).extractLsb' 7 5 = rd := by
  rw [wordR, BitVec.extractLsb'_append_eq_of_le (by decide), BitVec.extractLsb'_append_eq_right]

@[simp] theorem funct3_wordR :
    (wordR funct7 rs2 rs1 funct3 rd opcode).extractLsb' 12 3 = funct3 := by
  rw [wordR]
  iterate 2 rw [BitVec.extractLsb'_append_eq_of_le (by decide)]
  exact BitVec.extractLsb'_append_eq_right

@[simp] theorem rs1_wordR : (wordR funct7 rs2 rs1 funct3 rd opcode).extractLsb' 15 5 = rs1 := by
  rw [wordR]
  iterate 3 rw [BitVec.extractLsb'_append_eq_of_le (by decide)]
  exact BitVec.extractLsb'_append_eq_right

@[simp] theorem rs2_wordR : (wordR funct7 rs2 rs1 funct3 rd opcode).extractLsb' 20 5 = rs2 := by
  rw [wordR]
  iterate 4 rw [BitVec.extractLsb'_append_eq_of_le (by decide)]
  exact BitVec.extractLsb'_append_eq_right

@[simp] theorem funct7_wordR :
    (wordR funct7 rs2 rs1 funct3 rd opcode).extractLsb' 25 7 = funct7 := by
  rw [wordR]
  iterate 5 rw [BitVec.extractLsb'_append_eq_of_le (by decide)]
  exact BitVec.extractLsb'_eq_self

/-- Every word is six fields side by side. -/
theorem wordR_cuts (w : BitVec 32) :
    wordR (w.extractLsb' 25 7) (w.extractLsb' 20 5) (w.extractLsb' 15 5) (w.extractLsb' 12 3)
      (w.extractLsb' 7 5) (w.extractLsb' 0 7) = w := by
  simp only [wordR, BitVec.extractLsb'_append_extractLsb'_eq_extractLsb',
    BitVec.extractLsb'_eq_self]

theorem wordI_eq_wordR (imm : BitVec 12) :
    wordI imm rs1 funct3 rd opcode =
      wordR (imm.extractLsb' 5 7) (imm.extractLsb' 0 5) rs1 funct3 rd opcode := by
  have himm : imm.extractLsb' 5 7 ++ imm.extractLsb' 0 5 = imm :=
    (BitVec.extractLsb'_append_extractLsb'_eq_extractLsb' rfl).trans BitVec.extractLsb'_eq_self
  rw [wordR, himm]
  rfl

theorem wordU_eq_wordR (imm : BitVec 20) :
    wordU imm rd opcode =
      wordR (imm.extractLsb' 13 7) (imm.extractLsb' 8 5) (imm.extractLsb' 3 5)
        (imm.extractLsb' 0 3) rd opcode := by
  have himm : imm.extractLsb' 13 7 ++ imm.extractLsb' 8 5 ++ imm.extractLsb' 3 5 ++
      imm.extractLsb' 0 3 = imm := by
    simp only [BitVec.extractLsb'_append_extractLsb'_eq_extractLsb', BitVec.extractLsb'_eq_self]
  rw [wordR, himm]
  rfl

theorem cuts_wordI (imm : BitVec 12) :
    (wordI imm rs1 funct3 rd opcode).extractLsb' 0 7 = opcode ∧
      (wordI imm rs1 funct3 rd opcode).extractLsb' 7 5 = rd ∧
      (wordI imm rs1 funct3 rd opcode).extractLsb' 12 3 = funct3 ∧
      (wordI imm rs1 funct3 rd opcode).extractLsb' 15 5 = rs1 ∧
      (wordI imm rs1 funct3 rd opcode).extractLsb' 25 7 = imm.extractLsb' 5 7 := by
  rw [wordI_eq_wordR]
  exact ⟨opcode_wordR .., rd_wordR .., funct3_wordR .., rs1_wordR .., funct7_wordR ..⟩

theorem cuts_wordS (imm : BitVec 12) :
    (wordS imm rs2 rs1 funct3 opcode).extractLsb' 0 7 = opcode ∧
      (wordS imm rs2 rs1 funct3 opcode).extractLsb' 12 3 = funct3 ∧
      (wordS imm rs2 rs1 funct3 opcode).extractLsb' 15 5 = rs1 ∧
      (wordS imm rs2 rs1 funct3 opcode).extractLsb' 20 5 = rs2 :=
  ⟨opcode_wordR .., funct3_wordR .., rs1_wordR .., rs2_wordR ..⟩

theorem cuts_wordB (imm : BitVec 13) :
    (wordB imm rs2 rs1 funct3 opcode).extractLsb' 0 7 = opcode ∧
      (wordB imm rs2 rs1 funct3 opcode).extractLsb' 12 3 = funct3 ∧
      (wordB imm rs2 rs1 funct3 opcode).extractLsb' 15 5 = rs1 ∧
      (wordB imm rs2 rs1 funct3 opcode).extractLsb' 20 5 = rs2 :=
  ⟨opcode_wordR .., funct3_wordR .., rs1_wordR .., rs2_wordR ..⟩

theorem cuts_wordU (imm : BitVec 20) :
    (wordU imm rd opcode).extractLsb' 0 7 = opcode ∧
      (wordU imm rd opcode).extractLsb' 7 5 = rd := by
  rw [wordU_eq_wordR]
  exact ⟨opcode_wordR .., rd_wordR ..⟩

theorem cuts_wordJ (imm : BitVec 21) :
    (wordJ imm rd opcode).extractLsb' 0 7 = opcode ∧
      (wordJ imm rd opcode).extractLsb' 7 5 = rd :=
  cuts_wordU rd opcode (jumpOrder imm)

/-! ### Immediates -/

@[simp] theorem immI_wordI (imm : BitVec 12) : immI (wordI imm rs1 funct3 rd opcode) = imm := by
  rw [immI, wordI]
  iterate 4 rw [BitVec.extractLsb'_append_eq_of_le (by decide)]
  exact BitVec.extractLsb'_eq_self

@[simp] theorem immS_wordS (imm : BitVec 12) :
    immS (wordS imm rs2 rs1 funct3 opcode) = imm := by
  rw [immS, wordS, funct7_wordR, rd_wordR]
  exact (BitVec.extractLsb'_append_extractLsb'_eq_extractLsb' rfl).trans
    BitVec.extractLsb'_eq_self

@[simp] theorem immU_wordU (imm : BitVec 20) : immU (wordU imm rd opcode) = imm := by
  rw [immU, wordU]
  iterate 2 rw [BitVec.extractLsb'_append_eq_of_le (by decide)]
  exact BitVec.extractLsb'_eq_self

/-- The lowest bit of an offset is not spelled. -/
theorem immB_wordB {imm : BitVec 13} (heven : imm.getLsbD 0 = false) :
    immB (wordB imm rs2 rs1 funct3 opcode) = imm := by
  apply BitVec.eq_of_getLsbD_eq
  intro i hi
  -- Bit by bit, since the layout scatters them.
  simp only [immB, wordB, wordR, BitVec.getLsbD_append, BitVec.getLsbD_extractLsb']
  interval_cases i <;> simp_all

theorem immJ_wordJ {imm : BitVec 21} (heven : imm.getLsbD 0 = false) :
    immJ (wordJ imm rd opcode) = imm := by
  apply BitVec.eq_of_getLsbD_eq
  intro i hi
  simp only [immJ, wordJ, wordU, jumpOrder, BitVec.getLsbD_append, BitVec.getLsbD_extractLsb']
  interval_cases i <;> simp_all

end Cuts

section Reassembly

variable {w : BitVec 32} {opcode : BitVec 7}

theorem even_immB (w : BitVec 32) : (immB w).getLsbD 0 = false := by
  rw [immB, BitVec.getLsbD_append]
  rfl

theorem even_immJ (w : BitVec 32) : (immJ w).getLsbD 0 = false := by
  rw [immJ, BitVec.getLsbD_append]
  rfl

theorem wordI_immI (h : w.extractLsb' 0 7 = opcode) :
    wordI (immI w) (w.extractLsb' 15 5) (w.extractLsb' 12 3) (w.extractLsb' 7 5) opcode = w := by
  simp only [← h, wordI, immI, BitVec.extractLsb'_append_extractLsb'_eq_extractLsb',
    BitVec.extractLsb'_eq_self]

theorem wordS_immS (h : w.extractLsb' 0 7 = opcode) :
    wordS (immS w) (w.extractLsb' 20 5) (w.extractLsb' 15 5) (w.extractLsb' 12 3) opcode = w := by
  rw [wordS, immS, BitVec.extractLsb'_append_eq_left, BitVec.extractLsb'_append_eq_right, ← h,
    wordR_cuts]

theorem wordB_immB (h : w.extractLsb' 0 7 = opcode) :
    wordB (immB w) (w.extractLsb' 20 5) (w.extractLsb' 15 5) (w.extractLsb' 12 3) opcode = w := by
  have hupper : (immB w).extractLsb' 12 1 ++ (immB w).extractLsb' 5 6 = w.extractLsb' 25 7 := by
    apply BitVec.eq_of_getLsbD_eq
    intro i hi
    simp only [immB, BitVec.getLsbD_append, BitVec.getLsbD_extractLsb']
    interval_cases i <;> simp
  have hlower : (immB w).extractLsb' 1 4 ++ (immB w).extractLsb' 11 1 = w.extractLsb' 7 5 := by
    apply BitVec.eq_of_getLsbD_eq
    intro i hi
    simp only [immB, BitVec.getLsbD_append, BitVec.getLsbD_extractLsb']
    interval_cases i <;> simp
  rw [wordB, hupper, hlower, ← h, wordR_cuts]

theorem wordU_immU (h : w.extractLsb' 0 7 = opcode) :
    wordU (immU w) (w.extractLsb' 7 5) opcode = w := by
  simp only [← h, wordU, immU, BitVec.extractLsb'_append_extractLsb'_eq_extractLsb',
    BitVec.extractLsb'_eq_self]

theorem wordJ_immJ (h : w.extractLsb' 0 7 = opcode) :
    wordJ (immJ w) (w.extractLsb' 7 5) opcode = w := by
  have himm : jumpOrder (immJ w) = immU w := by
    apply BitVec.eq_of_getLsbD_eq
    intro i hi
    simp only [jumpOrder, immJ, immU, BitVec.getLsbD_append, BitVec.getLsbD_extractLsb']
    interval_cases i <;> simp
  rw [wordJ, himm, wordU_immU h]

end Reassembly

/-! ### Formats of opcodes -/

/-- The ways to lay out a word. -/
inductive Format where
  | r | i | s | b | u | j
  deriving DecidableEq, Repr

namespace Format

/-- The format of an opcode.  The words of the opcodes that are not listed carry no
immediate, or the machine does not know them. -/
def ofOpcode : BitVec 7 → Format
  | 0b0010011 | 0b0000011 | 0b1100111 | 0b0011011 => i
  | 0b0100011 => s
  | 0b1100011 => b
  | 0b0110111 | 0b0010111 => u
  | 0b1101111 => j
  | _ => r

/-- The immediates that a format spells. -/
def Spells : Format → Int → Prop
  | r, n => n = 0
  | i, n | s, n => -2048 ≤ n ∧ n < 2048
  | b, n => -4096 ≤ n ∧ n < 4096 ∧ n % 2 = 0
  | u, n => -2147483648 ≤ n ∧ n < 2147483648 ∧ n % 4096 = 0
  | j, n => -1048576 ≤ n ∧ n < 1048576 ∧ n % 2 = 0

/-- What `f` and `g` say in a format is the same. -/
structure SameFields (format : Format) (f g : Fields) : Prop where
  opcode : g.opcode = f.opcode
  rd : format ≠ s → format ≠ b → g.rd = f.rd
  funct3 : format ≠ u → format ≠ j → g.funct3 = f.funct3
  rs1 : format ≠ u → format ≠ j → g.rs1 = f.rs1
  rs2 : format = r ∨ format = s ∨ format = b → g.rs2 = f.rs2
  funct7 : format = r → g.funct7 = f.funct7
  imm : g.imm = f.imm

/-- The immediate of a word. -/
def immediate (w : BitVec 32) : Format → Word
  | r => 0
  | i => ImmediateFormat.i.drawn w
  | s => ImmediateFormat.s.drawn w
  | b => ImmediateFormat.b.drawn w
  | u => ImmediateFormat.u.drawn w
  | j => ImmediateFormat.j.drawn w

end Format

end Isa

/-! ### Numbers of immediates -/

/-- A number that fits a field survives it. -/
theorem signExtend_setWidth {v : Word} {n : Nat} (hn : n < 64) (hle : -2 ^ n ≤ v.toInt)
    (hlt : v.toInt < 2 ^ n) : (v.setWidth (n + 1)).signExtend 64 = v := by
  apply BitVec.eq_of_toInt_eq
  have hdvd : 2 ^ (n + 1) ∣ 2 ^ 64 := Nat.pow_dvd_pow 2 hn
  rw [BitVec.toInt_signExtend_of_le hn, BitVec.toInt_setWidth, ← Int.bmod_bmod_of_dvd hdvd,
    ← BitVec.toInt_eq_toNat_bmod]
  apply Int.bmod_eq_of_le
  · rw [Nat.pow_succ]
    push_cast
    omega
  · rw [Nat.pow_succ]
    push_cast
    omega

theorem setWidth_signExtend {n : Nat} (hn : n ≤ 64) (v : BitVec n) :
    (v.signExtend 64).setWidth n = v := by
  apply BitVec.eq_of_getLsbD_eq
  intro i hi
  have hi' : i < 64 := Nat.lt_of_lt_of_le hi hn
  simp only [BitVec.getLsbD_setWidth, BitVec.getLsbD_signExtend, hi, hi', decide_true,
    Bool.true_and, if_true]

theorem toInt_signExtend_bounds {n : Nat} (hn : n < 64) (v : BitVec (n + 1)) :
    -2 ^ n ≤ (v.signExtend 64).toInt ∧ (v.signExtend 64).toInt < 2 ^ n := by
  rw [BitVec.toInt_signExtend_of_le hn]
  exact ⟨BitVec.le_toInt v, BitVec.toInt_lt⟩

theorem toInt_emod_two_pow {v : Word} {k : Nat} (hk : k ≤ 64) :
    v.toInt % 2 ^ k = (v.setWidth k).toNat := by
  have hdvd : ((2 ^ k : Nat) : Int) ∣ (2 ^ 64 : Nat) :=
    Int.natCast_dvd_natCast.2 (Nat.pow_dvd_pow 2 hk)
  have hemod : v.toInt % (2 ^ k : Nat) = v.toNat % (2 ^ k : Nat) := by
    rw [← Int.emod_emod_of_dvd _ hdvd, BitVec.toInt_eq_toNat_bmod, Int.bmod_emod,
      Int.emod_emod_of_dvd _ hdvd]
  rw [BitVec.toNat_setWidth]
  push_cast at hemod ⊢
  exact hemod

/-- The low bits of a multiple of a power of two are clear. -/
theorem setWidth_eq_zero_iff {v : Word} {k : Nat} (hk : k ≤ 64) :
    v.setWidth k = 0 ↔ v.toInt % 2 ^ k = 0 := by
  rw [toInt_emod_two_pow hk, ← BitVec.toNat_inj]
  exact Int.natCast_eq_zero.symm

theorem toInt_append_zeros {n k : Nat} (hk : k ≤ 64) (v : BitVec n) :
    ((v ++ 0#k).signExtend 64).toInt % 2 ^ k = 0 := by
  refine (setWidth_eq_zero_iff hk).1 (BitVec.eq_of_getLsbD_eq fun i hi => ?_)
  have hi64 : i < 64 := Nat.lt_of_lt_of_le hi hk
  have hisum : i < n + k := Nat.lt_add_left n hi
  simp only [BitVec.getLsbD_setWidth, BitVec.getLsbD_signExtend, BitVec.getLsbD_append, hi, hi64,
    hisum, decide_true, Bool.true_and, if_true, BitVec.getLsbD_zero, BitVec.ofNat_eq_ofNat]

theorem even_setWidth {v : Word} {n : Nat} (hn : 0 < n) (h : v.toInt % 2 = 0) :
    (v.setWidth n).getLsbD 0 = false := by
  have hlow : v.setWidth 1 = 0 := (setWidth_eq_zero_iff (by decide)).2 h
  have hbit : (v.setWidth 1).getLsbD 0 = false := by rw [hlow]; rfl
  rw [BitVec.getLsbD_setWidth] at hbit ⊢
  simpa [hn] using hbit

theorem extractLsb'_signExtend_append (imm : BitVec 20) :
    ((imm ++ 0#12).signExtend 64).extractLsb' 12 20 = imm := by
  have hcut : 12 + 20 ≤ 32 := by decide
  rw [← BitVec.extractLsb'_setWidth_of_le hcut, setWidth_signExtend (by decide),
    BitVec.extractLsb'_append_eq_left]

theorem upper_append {v : Word} (h : v.toInt % 4096 = 0) :
    v.extractLsb' 12 20 ++ 0#12 = v.setWidth 32 := by
  have hlow : v.extractLsb' 0 12 = 0 := by
    rw [← BitVec.setWidth_eq_extractLsb' (by decide)]
    exact (setWidth_eq_zero_iff (by decide)).2 h
  have hzero : 0#12 = v.extractLsb' 0 12 := hlow.symm
  rw [BitVec.setWidth_eq_extractLsb' (by decide), hzero]
  exact BitVec.extractLsb'_append_extractLsb'_eq_extractLsb' rfl

namespace Fields

open Isa

/-- The word of the fields in the format of their opcode. -/
def encode (f : Fields) : BitVec 32 :=
  match Format.ofOpcode f.opcode with
  | .r => wordR f.funct7 f.rs2 f.rs1 f.funct3 f.rd f.opcode
  | .i => wordI (f.imm.setWidth 12) f.rs1 f.funct3 f.rd f.opcode
  | .s => wordS (f.imm.setWidth 12) f.rs2 f.rs1 f.funct3 f.opcode
  | .b => wordB (f.imm.setWidth 13) f.rs2 f.rs1 f.funct3 f.opcode
  | .u => wordU (f.imm.extractLsb' 12 20) f.rd f.opcode
  | .j => wordJ (f.imm.setWidth 21) f.rd f.opcode

/-- Each opcode has the immediates of its format. -/
theorem imm_ofWord (w : BitVec 32) :
    (ofWord w).imm = (Format.ofOpcode (w.extractLsb' 0 7)).immediate w := by
  have hformat : ∀ o : BitVec 7, (Opcode.ofBits? o).bind Opcode.immediateFormat? =
      match Format.ofOpcode o with
      | .r => none
      | .i => some .i
      | .s => some .s
      | .b => some .b
      | .u => some .u
      | .j => some .j := by
    decide
  simp only [ofWord, ImmediateFormat.read_eq_drawn]
  rw [hformat]
  cases Format.ofOpcode (w.extractLsb' 0 7) <;> rfl

theorem ofWord_wordR (funct7 : BitVec 7) (rs2 rs1 : Register) (funct3 : BitVec 3)
    (rd : Register) (opcode : BitVec 7) :
    ofWord (wordR funct7 rs2 rs1 funct3 rd opcode) =
      { opcode, rd, funct3, rs1, rs2, funct7,
        imm := (Format.ofOpcode opcode).immediate (wordR funct7 rs2 rs1 funct3 rd opcode) } := by
  have himm := imm_ofWord (wordR funct7 rs2 rs1 funct3 rd opcode)
  rw [opcode_wordR] at himm
  rw [← himm]
  simp [ofWord]

section Cut

variable {rs2 rs1 : Register} {funct3 : BitVec 3} {rd : Register} {opcode : BitVec 7}

theorem ofWord_wordI (h : Format.ofOpcode opcode = .i) (imm : BitVec 12) :
    ofWord (wordI imm rs1 funct3 rd opcode) =
      { opcode, rd, funct3, rs1, rs2 := imm.extractLsb' 0 5, funct7 := imm.extractLsb' 5 7,
        imm := imm.signExtend 64 } := by
  rw [wordI_eq_wordR, ofWord_wordR, h, ← wordI_eq_wordR, Format.immediate,
    ImmediateFormat.drawn, immI_wordI]

theorem ofWord_wordS (h : Format.ofOpcode opcode = .s) (imm : BitVec 12) :
    ofWord (wordS imm rs2 rs1 funct3 opcode) =
      { opcode, rd := imm.extractLsb' 0 5, funct3, rs1, rs2, funct7 := imm.extractLsb' 5 7,
        imm := imm.signExtend 64 } := by
  rw [wordS, ofWord_wordR, h, ← wordS, Format.immediate, ImmediateFormat.drawn, immS_wordS]

theorem ofWord_wordB (h : Format.ofOpcode opcode = .b) {imm : BitVec 13}
    (heven : imm.getLsbD 0 = false) :
    ofWord (wordB imm rs2 rs1 funct3 opcode) =
      { opcode, rd := imm.extractLsb' 1 4 ++ imm.extractLsb' 11 1, funct3, rs1, rs2,
        funct7 := imm.extractLsb' 12 1 ++ imm.extractLsb' 5 6, imm := imm.signExtend 64 } := by
  rw [wordB, ofWord_wordR, h, ← wordB, Format.immediate, ImmediateFormat.drawn,
    immB_wordB _ _ _ _ heven]

theorem ofWord_wordU (h : Format.ofOpcode opcode = .u) (imm : BitVec 20) :
    ofWord (wordU imm rd opcode) =
      { opcode, rd, funct3 := imm.extractLsb' 0 3, rs1 := imm.extractLsb' 3 5,
        rs2 := imm.extractLsb' 8 5, funct7 := imm.extractLsb' 13 7,
        imm := (imm ++ 0#12).signExtend 64 } := by
  rw [wordU_eq_wordR, ofWord_wordR, h, ← wordU_eq_wordR, Format.immediate,
    ImmediateFormat.drawn, immU_wordU]

theorem ofWord_wordJ (h : Format.ofOpcode opcode = .j) {imm : BitVec 21}
    (heven : imm.getLsbD 0 = false) :
    ofWord (wordJ imm rd opcode) =
      { opcode, rd, funct3 := (jumpOrder imm).extractLsb' 0 3,
        rs1 := (jumpOrder imm).extractLsb' 3 5, rs2 := (jumpOrder imm).extractLsb' 8 5,
        funct7 := (jumpOrder imm).extractLsb' 13 7, imm := imm.signExtend 64 } := by
  rw [wordJ, wordU_eq_wordR, ofWord_wordR, h, ← wordU_eq_wordR, ← wordJ, Format.immediate,
    ImmediateFormat.drawn, immJ_wordJ _ _ heven]

end Cut

/-- Cutting undoes encoding. -/
theorem sameFields_ofWord_encode {f : Fields}
    (h : (Format.ofOpcode f.opcode).Spells f.imm.toInt) :
    (Format.ofOpcode f.opcode).SameFields f (ofWord f.encode) := by
  rw [encode]
  cases hformat : Format.ofOpcode f.opcode with
  | r =>
    rw [hformat] at h
    have himm : 0 = f.imm := BitVec.eq_of_toInt_eq h.symm
    dsimp only
    rw [ofWord_wordR, hformat]
    exact ⟨rfl, fun _ _ => rfl, fun _ _ => rfl, fun _ _ => rfl, fun _ => rfl, fun _ => rfl, himm⟩
  | i =>
    rw [hformat] at h
    dsimp only
    rw [ofWord_wordI hformat, signExtend_setWidth (by decide) h.1 h.2]
    exact ⟨rfl, fun _ _ => rfl, fun _ _ => rfl, fun _ _ => rfl, by simp, by simp, rfl⟩
  | s =>
    rw [hformat] at h
    dsimp only
    rw [ofWord_wordS hformat, signExtend_setWidth (by decide) h.1 h.2]
    exact ⟨rfl, by simp, fun _ _ => rfl, fun _ _ => rfl, fun _ => rfl, by simp, rfl⟩
  | b =>
    rw [hformat] at h
    dsimp only
    rw [ofWord_wordB hformat (even_setWidth (by decide) h.2.2),
      signExtend_setWidth (by decide) h.1 h.2.1]
    exact ⟨rfl, by simp, fun _ _ => rfl, fun _ _ => rfl, fun _ => rfl, by simp, rfl⟩
  | u =>
    rw [hformat] at h
    dsimp only
    rw [ofWord_wordU hformat, upper_append h.2.2, signExtend_setWidth (by decide) h.1 h.2.1]
    exact ⟨rfl, fun _ _ => rfl, by simp, by simp, by simp, by simp, rfl⟩
  | j =>
    rw [hformat] at h
    dsimp only
    rw [ofWord_wordJ hformat (even_setWidth (by decide) h.2.2),
      signExtend_setWidth (by decide) h.1 h.2.1]
    exact ⟨rfl, fun _ _ => rfl, by simp, by simp, by simp, by simp, rfl⟩

/-- Encoding undoes cutting. -/
theorem encode_ofWord (w : BitVec 32) : (ofWord w).encode = w := by
  have himm := imm_ofWord w
  have hopcode : (ofWord w).opcode = w.extractLsb' 0 7 := rfl
  rw [encode, himm, hopcode]
  cases Format.ofOpcode (w.extractLsb' 0 7) with
  | r => exact wordR_cuts w
  | i =>
    dsimp only [Format.immediate, ImmediateFormat.drawn]
    rw [setWidth_signExtend (by decide)]
    exact wordI_immI rfl
  | s =>
    dsimp only [Format.immediate, ImmediateFormat.drawn]
    rw [setWidth_signExtend (by decide)]
    exact wordS_immS rfl
  | b =>
    dsimp only [Format.immediate, ImmediateFormat.drawn]
    rw [setWidth_signExtend (by decide)]
    exact wordB_immB rfl
  | u =>
    dsimp only [Format.immediate, ImmediateFormat.drawn]
    rw [extractLsb'_signExtend_append]
    exact wordU_immU rfl
  | j =>
    dsimp only [Format.immediate, ImmediateFormat.drawn]
    rw [setWidth_signExtend (by decide)]
    exact wordJ_immJ rfl

/-- The immediate of a word is one that its format spells. -/
theorem spells_ofWord (w : BitVec 32) :
    (Format.ofOpcode (ofWord w).opcode).Spells (ofWord w).imm.toInt := by
  have hopcode : (ofWord w).opcode = w.extractLsb' 0 7 := rfl
  rw [imm_ofWord, hopcode]
  cases Format.ofOpcode (w.extractLsb' 0 7) with
  | r => rfl
  | i => exact toInt_signExtend_bounds (by decide) (immI w)
  | s => exact toInt_signExtend_bounds (by decide) (immS w)
  | b =>
    obtain ⟨hle, hlt⟩ := toInt_signExtend_bounds (by decide) (immB w)
    exact ⟨hle, hlt, toInt_append_zeros (k := 1) (by decide) _⟩
  | u =>
    obtain ⟨hle, hlt⟩ := toInt_signExtend_bounds (by decide) (immU w ++ 0#12)
    exact ⟨hle, hlt, toInt_append_zeros (k := 12) (by decide) (immU w)⟩
  | j =>
    obtain ⟨hle, hlt⟩ := toInt_signExtend_bounds (by decide) (immJ w)
    exact ⟨hle, hlt, toInt_append_zeros (k := 1) (by decide) _⟩

/-- Cutting and encoding are inverse to each other. -/
theorem encode_inverse :
    (∀ f : Fields, (Format.ofOpcode f.opcode).Spells f.imm.toInt →
      (Format.ofOpcode f.opcode).SameFields f (ofWord f.encode)) ∧
    ∀ w : BitVec 32, (Format.ofOpcode (ofWord w).opcode).Spells (ofWord w).imm.toInt ∧
      (ofWord w).encode = w :=
  ⟨fun _ h => sameFields_ofWord_encode h, fun w => ⟨spells_ofWord w, encode_ofWord w⟩⟩

/-- The fields of `bne gp, tp, -4096`, the farthest branch back. -/
def farthestBack : Fields where
  opcode := 0b1100011
  rd := 0
  funct3 := 0b001
  rs1 := 3
  rs2 := 4
  funct7 := 0
  imm := -4096

theorem encode_inverse_farthestBack : Format.b.Spells farthestBack.imm.toInt ∧
    farthestBack.encode = 0x80419063 ∧
    Format.b.SameFields farthestBack (ofWord 0x80419063) := by
  have hspells : Format.b.Spells farthestBack.imm.toInt :=
    ⟨by decide, by decide, by decide⟩
  have hencode : farthestBack.encode = 0x80419063 := by decide
  have hback := encode_inverse.1 farthestBack hspells
  rw [hencode] at hback
  exact ⟨hspells, hencode, hback⟩

end Fields

end Hart
