/-
Where the bytes of a program are after booting.

Booting writes the text of a program and then its data, each as one buffer.  The
data buffer fills the gaps between its sections with zeros, and wins where the two
buffers overlap.

* `Machine.loadByte_boot` — every byte of memory of a booted machine;
* `Machine.loadByte_boot_sections` — for a program of sections that do not
  overlap, a byte of data is found where it was linked, and a byte of text is found
  there unless it lies between two data sections and is not zero.

Design notes: the zeros in the gaps of data are harmless as long as no text lies
there, as in an image whose data sections are all on one side of its text.
-/
import Hart.Machine.Basic
import Hart.Proofs.Image.Layout
import Hart.Proofs.Memory.Cells

namespace Hart

namespace Setup

/-- A placement whose segments are aligned, end in the address space and keep clear of the
heap, and which is entered at an instruction of text. -/
structure Fits (s : Setup) : Prop where
  textStart_aligned : s.textStart % instructionSize = 0
  textStop_le : s.textStop ≤ s.config.general.xlen.maxAddress
  dataStop_le : s.dataStop ≤ s.config.general.xlen.maxAddress
  heapFault? : ∀ segment, s.heapFault? segment = none
  entry_inside : ∀ e ∈ s.program.entry, ¬ s.EntryOutside e

/-- A placement without a fault passed every check. -/
theorem fits_of_fault?_eq_none {s : Setup} (h : s.fault? = none) : s.Fits := by
  unfold fault? at h
  dsimp only at h
  split at h
  · cases h
  split at h
  · cases h
  split at h
  · cases h
  rw [Option.or_eq_none_iff, Option.or_eq_none_iff, ite_eq_right_iff] at h
  obtain ⟨htext, hdata, hentry⟩ := h
  refine ⟨by omega, by omega, by omega, fun segment => ?_, fun e he houtside => ?_⟩
  · cases segment with
    | text => exact htext
    | data => exact hdata
  · rw [Option.mem_def.1 he, Option.any_some] at hentry
    exact absurd (hentry (decide_eq_true houtside)) (by simp)

/-- A placement that fits is entered inside the address space. -/
theorem Fits.entryAddress_lt {s : Setup} (h : s.Fits)
    (hstop : s.textStop = s.textStart + s.program.textLength) :
    s.entryAddress < s.config.general.xlen.space := by
  have hentry : s.entryAddress ≤ s.textStop := by
    rw [entryAddress, hstop]
    cases hsome : s.program.entry with
    | none => exact Nat.le_add_right _ _
    | some e =>
      have hin : e < s.program.textLength :=
        Nat.lt_of_not_le fun hle => h.entry_inside e hsome (.inl hle)
      exact Nat.add_le_add_left (Nat.le_of_lt hin) _
  exact Nat.lt_of_le_of_lt (Nat.le_trans hentry h.textStop_le)
    s.config.general.xlen.maxAddress_lt_space

end Setup

/-- An instruction is fetched whatever the alignment policy. -/
theorem Memory.load_instruction {x : Xlen} (m : Memory x) {a : Nat}
    (h : a % instructionSize = 0) :
    m.load a instructionSize = .ok (m.splitLoad a instructionSize) := by
  have hspace : 2 ^ 2 ∣ x.space := by cases x <;> decide
  have haligned : m.alignmentError? a instructionSize = none :=
    alignmentError?_two_pow (k := 2) m hspace (Nat.dvd_of_mod_eq_zero h)
  rw [load_eq, haligned]

namespace Machine

variable {c : Config} {p : Program} {m : Machine c.general.xlen}

/-- The machine before the program is put into memory. -/
def blank (c : Config) (p : Program) : Machine c.general.xlen where
  registers := RegisterFile.empty
  arena :=
    ⟨Heap.empty c.general.xlen c.memory.heapBase c.memory.heapLimit c.heap.alwaysCalloc,
      Memory.empty c.general.xlen c.memory.aligned⟩
  setup := Setup.place c p
  pc := 0
  state := .ready
  exitCode := none
  breakpoints := ∅

/-- Booting, check by check. -/
theorem boot_eq (c : Config) (p : Program) :
    boot c p = match c.check with
      | .error e => .error e
      | .ok _ => match (Setup.place c p).fault? with
        | some fault => .error (.layout fault)
        | none => .ok (blank c p).loadImage := by
  unfold boot
  cases c.check with
  | error e => rfl
  | ok u =>
    dsimp only [bind, Except.bind]
    cases (Setup.place c p).fault? <;> rfl

/-- A machine is booted when both checks find nothing. -/
theorem boot_eq_ok_iff : boot c p = .ok m ↔
    c.check = .ok () ∧ (Setup.place c p).fault? = none ∧ m = (blank c p).loadImage := by
  rw [boot_eq]
  cases c.check with
  | error e => exact iff_of_false (by simp) (by simp)
  | ok u =>
    cases (Setup.place c p).fault? with
    | some fault => exact iff_of_false (by simp) (by simp)
    | none =>
      dsimp only
      rw [Except.ok.injEq]
      exact ⟨fun h => ⟨rfl, rfl, h.symm⟩, fun h => h.2.2.symm⟩

/-- What booting establishes. -/
theorem boot_spec (h : boot c p = .ok m) :
    m.setup = Setup.place c p ∧ (Setup.place c p).fault? = none ∧
      m.memory = ((Memory.empty c.general.xlen c.memory.aligned).storeBytes
        (Setup.place c p).textStart p.textBytes).storeBytes (Setup.place c p).dataStart p.data := by
  obtain ⟨-, hfault, rfl⟩ := boot_eq_ok_iff.1 h
  exact ⟨rfl, hfault, rfl⟩

/-- Where a booted machine starts. -/
theorem boot_start (h : boot c p = .ok m) :
    m.registers = initialRegisters (Setup.place c p) ∧
      m.pc = BitVec.ofNat 64 (Setup.place c p).entryAddress ∧ m.state = .ready := by
  obtain ⟨-, -, rfl⟩ := boot_eq_ok_iff.1 h
  exact ⟨rfl, rfl, rfl⟩

/-- A buffer that does not wrap, written and read back. -/
theorem loadByte_storeBytes_eq {x : Xlen} (memory : Memory x) {start a : Nat} {bytes : List UInt8}
    (hstop : start + bytes.length ≤ x.space) (ha : a < x.space) :
    (memory.storeBytes start bytes).loadByte a =
      if start ≤ a ∧ a < start + bytes.length then bytes[a - start]?.getD 0
      else memory.loadByte a := by
  by_cases hin : start ≤ a ∧ a < start + bytes.length
  · obtain ⟨i, rfl⟩ := Nat.exists_eq_add_of_le hin.1
    have hi : i < bytes.length := by omega
    rw [if_pos hin, Memory.loadByte_storeBytes_of_inside memory hstop hi, Nat.add_sub_cancel_left,
      List.getElem?_eq_getElem hi, Option.getD_some]
  · rw [if_neg hin, Memory.loadByte_storeBytes_of_outside memory hstop ha hin]

/-- The segments of a booted machine end inside the address space. -/
theorem boot_stop_lt (h : boot c p = .ok m) :
    m.setup.textStart + p.textBytes.length < c.general.xlen.space ∧
      m.setup.dataStart + p.data.length < c.general.xlen.space := by
  obtain ⟨hsetup, hfault, -⟩ := boot_spec h
  have hfits := Setup.fits_of_fault?_eq_none hfault
  have htop := c.general.xlen.maxAddress_lt_space
  rw [hsetup, Program.length_textBytes]
  exact ⟨Nat.lt_of_le_of_lt hfits.textStop_le htop, Nat.lt_of_le_of_lt hfits.dataStop_le htop⟩

/-- Every byte of memory of a booted machine. -/
theorem loadByte_boot (h : boot c p = .ok m) {a : Nat} (ha : a < c.general.xlen.space) :
    m.memory.loadByte a =
      if m.setup.dataStart ≤ a ∧ a < m.setup.dataStart + p.data.length then
        p.data[a - m.setup.dataStart]?.getD 0
      else if m.setup.textStart ≤ a ∧ a < m.setup.textStart + p.textBytes.length then
        p.textBytes[a - m.setup.textStart]?.getD 0
      else 0 := by
  obtain ⟨htext, hdata⟩ := boot_stop_lt h
  obtain ⟨hsetup, -, hmemory⟩ := boot_spec h
  rw [hsetup] at htext hdata ⊢
  rw [hmemory, loadByte_storeBytes_eq _ (Nat.le_of_lt hdata) ha,
    loadByte_storeBytes_eq _ (Nat.le_of_lt htext) ha, Memory.loadByte_empty]

/-! ### Programs of sections -/

variable {T D sections : List Section} {s : Section} {entry i : Nat}

/-- Data is found where it was linked. -/
theorem loadByte_boot_of_data (hm : boot c p = .ok m)
    (hdata : Section.Holds sections m.setup.dataStart p.data) (hs : s ∈ sections)
    (hi : i < s.bytes.length) : m.memory.loadByte (s.address + i) = s.bytes[i] := by
  have hstart := hdata.start_le s hs
  have hstop := hdata.stop_le s hs
  have hlt := (boot_stop_lt hm).2
  have hbyte := hdata.byte s hs i hi
  rw [Section.stop] at hstop
  have hindex : s.address + i - m.setup.dataStart = s.address - m.setup.dataStart + i := by omega
  rw [loadByte_boot hm (by omega), if_pos ⟨by omega, by omega⟩, hindex, hbyte,
    List.getElem?_eq_getElem hi, Option.getD_some]

/-- Text is found where it was linked, away from the data buffer. -/
theorem loadByte_boot_of_text (hm : boot c p = .ok m)
    (htext : Section.Holds sections m.setup.textStart p.textBytes) (hs : s ∈ sections)
    (hi : i < s.bytes.length)
    (hout : ¬ (m.setup.dataStart ≤ s.address + i ∧
      s.address + i < m.setup.dataStart + p.data.length)) :
    m.memory.loadByte (s.address + i) = s.bytes[i] := by
  have hstart := htext.start_le s hs
  have hstop := htext.stop_le s hs
  have hlt := (boot_stop_lt hm).1
  have hbyte := htext.byte s hs i hi
  rw [Section.stop] at hstop
  have hindex : s.address + i - m.setup.textStart = s.address - m.setup.textStart + i := by omega
  rw [loadByte_boot hm (by omega), if_neg hout, if_pos ⟨by omega, by omega⟩, hindex, hbyte,
    List.getElem?_eq_getElem hi, Option.getD_some]

/-- Between data sections there are zeros. -/
theorem loadByte_boot_of_gap (hm : boot c p = .ok m)
    (hdata : Section.Holds sections m.setup.dataStart p.data) {a : Nat}
    (hin : m.setup.dataStart ≤ a ∧ a < m.setup.dataStart + p.data.length)
    (hnone : ∀ d ∈ sections, ¬ d.Covers a) : m.memory.loadByte a = 0 := by
  have hlt := (boot_stop_lt hm).2
  have hgap := hdata.gap (a - m.setup.dataStart) (by omega) fun d hd => by
    rw [Nat.add_sub_cancel' hin.1]
    exact hnone d hd
  rw [loadByte_boot hm (by omega), if_pos hin, hgap, Option.getD_some]

/-- A byte of text is found where it was linked, unless it is not zero and lies in the
range of the data buffer. -/
theorem loadByte_boot_text_iff {data : List Section} (hm : boot c p = .ok m)
    (htext : Section.Holds sections m.setup.textStart p.textBytes)
    (hdata : Section.Holds data m.setup.dataStart p.data) (hs : s ∈ sections)
    (hseparate : ∀ d ∈ data, s.Separate d) (hi : i < s.bytes.length) :
    m.memory.loadByte (s.address + i) = s.bytes[i] ↔
      s.bytes[i] = 0 ∨ ¬ (m.setup.dataStart ≤ s.address + i ∧
        s.address + i < m.setup.dataStart + p.data.length) := by
  by_cases hin : m.setup.dataStart ≤ s.address + i ∧
      s.address + i < m.setup.dataStart + p.data.length
  · -- No data section has an address of text, so the data buffer has a zero here.
    have hzero : m.memory.loadByte (s.address + i) = 0 := by
      refine loadByte_boot_of_gap hm hdata hin fun d hd hcovers => ?_
      have hlow := hcovers.1
      have hhigh := hcovers.2
      rcases hseparate d hd with hsd | hds
      · rw [Section.stop] at hsd
        omega
      · omega
    rw [hzero]
    constructor
    · intro hbyte
      exact .inl hbyte.symm
    · rintro (hbyte | hout)
      · exact hbyte.symm
      · exact absurd hin hout
  · exact iff_of_true (loadByte_boot_of_text hm htext hs hi hin) (.inr hin)

/-- The text buffer of a booted program of sections. -/
theorem boot_text_holds (hT : T.Pairwise Section.Separate)
    (hp : Program.ofSections? T D entry = .ok p) (hm : boot c p = .ok m) :
    Section.Holds (Section.arranged T) m.setup.textStart p.textBytes := by
  obtain ⟨textStart, dataStart, text, htext, hsome, -, rfl, haddress, -⟩ :=
    Program.ofSections?_spec hp
  have hstart : m.setup.textStart = textStart := by
    rw [(boot_spec hm).1, Setup.place, haddress]
    rfl
  rw [hstart]
  rcases Section.flatten_holds hT htext with ⟨-, hempty⟩ | hholds
  · exact absurd hempty hsome
  · exact hholds

/-- The data buffer of a booted program of sections. -/
theorem boot_data_holds (hD : D.Pairwise Section.Separate)
    (hp : Program.ofSections? T D entry = .ok p) (hm : boot c p = .ok m) :
    (Section.arranged D = [] ∧ p.data = []) ∨
      Section.Holds (Section.arranged D) m.setup.dataStart p.data := by
  obtain ⟨textStart, dataStart, text, -, -, hdata, -, -, haddress⟩ := Program.ofSections?_spec hp
  rcases Section.flatten_holds hD hdata with hempty | hholds
  · exact .inl hempty
  · right
    have hfull : p.data ≠ [] := by
      obtain ⟨d, hd, -⟩ := hholds.start_mem
      have hstart := hholds.start_le d hd
      have hstop := hholds.stop_le d hd
      have hpos := List.length_pos_iff.2 (Section.mem_arranged.1 hd).2
      rw [Section.stop] at hstop
      exact List.length_pos_iff.1 (by omega)
    have hstart : m.setup.dataStart = dataStart := by
      rw [(boot_spec hm).1, Setup.place, haddress hfull]
      rfl
    rw [hstart]
    exact hholds

/-- A program of sections that do not overlap: its data is found where it was
linked, and so is a byte of text, unless data sections lie below and above it and
it is not zero. -/
theorem loadByte_boot_sections (hne : ∀ s ∈ T ++ D, s.bytes ≠ [])
    (hseparate : (T ++ D).Pairwise Section.Separate)
    (hp : Program.ofSections? T D entry = .ok p) (hm : boot c p = .ok m) :
    (∀ s ∈ D, ∀ i (hi : i < s.bytes.length), m.memory.loadByte (s.address + i) = s.bytes[i]) ∧
      ∀ s ∈ T, ∀ i (hi : i < s.bytes.length),
        (m.memory.loadByte (s.address + i) = s.bytes[i] ↔
          s.bytes[i] = 0 ∨
            ¬ ((∃ d ∈ D, d.address ≤ s.address + i) ∧ ∃ d ∈ D, s.address + i < d.stop)) := by
  obtain ⟨hT, hD, hTD⟩ := List.pairwise_append.1 hseparate
  have harrangedT (s : Section) (hs : s ∈ T) : s ∈ Section.arranged T :=
    Section.mem_arranged.2 ⟨hs, hne s (List.mem_append_left D hs)⟩
  have harrangedD (s : Section) : s ∈ Section.arranged D ↔ s ∈ D :=
    Section.mem_arranged.trans ⟨fun h => h.1, fun h => ⟨h, hne s (List.mem_append_right T h)⟩⟩
  have htext := boot_text_holds hT hp hm
  rcases boot_data_holds hD hp hm with ⟨hnoD, hempty⟩ | hdata
  · -- Without data sections nothing covers the text.
    have hnone (s : Section) : s ∉ D := fun hs => by
      rw [← harrangedD, hnoD] at hs
      cases hs
    refine ⟨fun s hs => absurd hs (hnone s), fun s hs i hi => iff_of_true ?_ (.inr ?_)⟩
    · refine loadByte_boot_of_text hm htext (harrangedT s hs) hi fun hin => ?_
      rw [hempty, List.length_nil] at hin
      omega
    · rintro ⟨⟨d, hd, -⟩, -⟩
      exact hnone d hd
  · have hspan (a : Nat) := hdata.mem_span_iff (c := a)
    simp only [harrangedD] at hspan
    refine ⟨fun s hs i hi => ?_, fun s hs i hi => ?_⟩
    · exact loadByte_boot_of_data hm hdata ((harrangedD s).2 hs) hi
    · rw [← hspan]
      refine loadByte_boot_text_iff hm htext hdata (harrangedT s hs) (fun d hd => ?_) hi
      exact hTD s hs d ((harrangedD d).1 hd)

/-- One instruction, `addi t0, zero, 1`. -/
def straddledText : List Section :=
  [⟨0x11000, [0x93, 0x02, 0x10, 0x00]⟩]

/-- One byte of data on each side of `straddledText`. -/
def straddlingData : List Section :=
  [⟨0x10FFC, [1]⟩, ⟨0x11004, [2]⟩]

theorem ofSections?_straddling : Program.ofSections? straddledText straddlingData 0 = .ok
    { text := [0x00100293#32]
      data := [1, 0, 0, 0, 0, 0, 0, 0, 2]
      textAddress := some 0x11000
      dataAddress := some 0x10FFC } := by
  have htext : Section.flatten straddledText = .ok (0x11000, [0x93, 0x02, 0x10, 0x00]) := by
    rw [Section.flatten, Section.arranged_eq_self (by decide) (by decide)]
    rfl
  have hdata : Section.flatten straddlingData = .ok (0x10FFC, [1, 0, 0, 0, 0, 0, 0, 0, 2]) := by
    rw [Section.flatten, Section.arranged_eq_self (by decide) (by decide)]
    rfl
  rw [Program.ofSections?, htext, hdata]
  rfl

theorem boot_straddling : ∃ m, boot {}
    { text := [0x00100293#32]
      data := [1, 0, 0, 0, 0, 0, 0, 0, 2]
      textAddress := some 0x11000
      dataAddress := some 0x10FFC } = .ok m :=
  ⟨_, rfl⟩

/-- Text between data sections is lost. -/
theorem loadByte_boot_straddled : ∃ p m,
    Program.ofSections? straddledText straddlingData 0 = .ok p ∧ boot {} p = .ok m ∧
      m.memory.loadByte 0x11000 ≠ 0x93 := by
  obtain ⟨m, hm⟩ := boot_straddling
  refine ⟨_, m, ofSections?_straddling, hm, fun hbyte => ?_⟩
  have hseparate : (straddledText ++ straddlingData).Pairwise Section.Separate := by
    simp [straddledText, straddlingData, Section.Separate, Section.stop]
  have htext := (loadByte_boot_sections (by decide) hseparate ofSections?_straddling hm).2
    ⟨0x11000, [0x93, 0x02, 0x10, 0x00]⟩ List.mem_cons_self 0 (by decide)
  rcases htext.1 hbyte with hzero | hout
  · exact absurd hzero (by decide)
  · exact hout ⟨⟨_, List.mem_cons_self, by decide⟩,
      _, List.mem_cons_of_mem _ List.mem_cons_self, by decide⟩

end Machine

end Hart
