/-
Booting without overflow.

`Machine.boot?` boots like `Machine.boot` with sums, differences and products of 64-bit numbers:
one that does not fit gives no result.

* `Memory.slices?_eq`, `Memory.storeBytes?_eq` — none fails while a segment is written that stops
  in the address space;
* `Machine.boot?_eq` — none fails while a machine is built, unless the length of text itself is
  no 64-bit number;
* `Machine.boot_accepts` — which images are accepted, and that nothing overflows then.

Design notes: the stop of a segment is the one sum that may leave 64 bits, and where it is first
computed that counts as leaving the address space.
-/
import Hart.Proofs.Image.Acceptance

namespace Hart

theorem Xlen.maxAddress_lt_wordLimit (x : Xlen) : x.maxAddress < wordLimit :=
  Nat.lt_of_lt_of_le x.maxAddress_lt_space x.space_le_wordLimit

/-! ### Steps that may fail -/

namespace Checked

/-- A sum that must fit in 64 bits. -/
def add? (a b : Nat) : Option { n // n = a + b } :=
  if a + b < wordLimit then some ⟨a + b, rfl⟩ else none

/-- A product that must fit in 64 bits. -/
def mul? (a b : Nat) : Option { n // n = a * b } :=
  if a * b < wordLimit then some ⟨a * b, rfl⟩ else none

/-- A difference that must not be negative. -/
def sub? (a b : Nat) : Option { n // n = a - b } :=
  if b ≤ a then some ⟨a - b, rfl⟩ else none

theorem add?_of_lt {a b : Nat} (h : a + b < wordLimit) : add? a b = some ⟨a + b, rfl⟩ :=
  if_pos h

theorem mul?_of_lt {a b : Nat} (h : a * b < wordLimit) : mul? a b = some ⟨a * b, rfl⟩ :=
  if_pos h

theorem sub?_of_le {a b : Nat} (h : b ≤ a) : sub? a b = some ⟨a - b, rfl⟩ :=
  if_pos h

end Checked

open Checked

/-! ### Writing a segment -/

namespace Memory

variable {x : Xlen} {address done length : Nat}

/-- The slices of what is left of `length` bytes after `done` of them, from an address of the
address space on. -/
def slices? (x : Xlen) (address done length : Nat) : Option (List Slice) :=
  if done < length then do
    let room ← sub? pageSize (offsetOf x address)
    let left ← sub? length done
    let count := min room.1 left.1
    let _ ← add? (offsetOf x address) count
    let done' ← add? done count
    let next ← add? address count
    let rest ← slices? x (x.wrap next.1) done'.1 length
    return ⟨pageOf x address, offsetOf x address, count⟩ :: rest
  else some []
termination_by length - done
decreasing_by
  have := offsetOf_lt (x := x) address
  have := room.2
  have := left.2
  have := done'.2
  omega

def storeBytes? (m : Memory x) (address : Nat) (bytes : List UInt8) : Option (Memory x) := do
  let slices ← slices? x (x.wrap address) 0 bytes.length
  return m.storeSlices slices bytes

/-- No sum fails on the way to the end of a range that stops in the address space. -/
theorem slices?_eq (hstop : address + (length - done) < x.space) (hlength : length < wordLimit) :
    slices? x address done length = some (slices x address (length - done)) := by
  generalize hleft : length - done = left at hstop
  induction left using Nat.strongRecOn generalizing address done with
  | ind left ih =>
    have hspace := x.space_le_wordLimit
    have hoffset := offsetOf_lt (x := x) address
    rw [slices?, slices]
    by_cases hdone : done < length
    · have hpage : pageSize < wordLimit := by decide
      rw [if_pos hdone, if_neg (by omega), sub?_of_le (Nat.le_of_lt hoffset),
        sub?_of_le (Nat.le_of_lt hdone)]
      dsimp only [Option.bind_eq_bind, Option.bind_some]
      rw [hleft]
      generalize hcount : min (pageSize - offsetOf x address) left = count
      have hnext : x.wrap (address + count) = address + count := Xlen.wrap_of_lt (by omega)
      have hrest : slices? x (address + count) (done + count) length =
          some (slices x (address + count) (left - count)) :=
        ih (left - count) (by omega) (by omega) (by omega)
      rw [add?_of_lt (by omega), add?_of_lt (by omega), add?_of_lt (by omega)]
      dsimp only [Option.bind_some]
      rw [hnext, hrest]
      rfl
    · rw [if_neg hdone, if_pos (by omega)]

theorem storeBytes?_eq (m : Memory x) {bytes : List UInt8}
    (hstop : address + bytes.length < x.space) :
    m.storeBytes? address bytes = some (m.storeBytes address bytes) := by
  have hspace := x.space_le_wordLimit
  rw [storeBytes?, Xlen.wrap_of_lt (by omega), slices?_eq (by omega) (by omega)]
  rfl

end Memory

/-! ### Building a machine -/

/-- Computations that an error may end, and that give no result where a step fails. -/
abbrev BootM := ExceptT ConfigError Option

namespace BootM

variable {α β : Type} {q : Prop} [Decidable q]

def refuse (fault : LayoutFault) : BootM α := throw (.layout fault)

/-- A check, which a layout passes where the fault `q` is absent. -/
def refuseIf (q : Prop) [Decidable q] (fault : LayoutFault) : BootM Unit :=
  if q then refuse fault else pure ()

/-- Where a segment stops, which has to be in the address space. -/
def segmentStop (x : Xlen) (segment : Segment) (start length : Nat) : BootM Nat :=
  match add? start length with
  | some stop => do
    refuseIf (x.maxAddress < stop.1) (.segmentTooLong segment)
    return stop.1
  | none => refuse (.segmentTooLong segment)

/-- Refuses a segment that reaches into the heap. -/
def clearOfHeap (m : MemoryConfig) (segment : Segment) (start length : Nat) : BootM Unit := do
  let stop ← add? start length
  refuseIf (0 < length ∧ start < m.heapLimit ∧ m.heapBase < stop.1)
    (.segmentInHeap segment start stop.1 m.heapBase m.heapLimit)

/-- The segments placed where the program or else the configuration wants them, check by check. -/
def place (c : Config) (p : Program) : BootM Setup := do
  let textStart := p.textAddress.getD c.memory.textBase
  let dataStart := p.dataAddress.getD c.memory.dataBase
  refuseIf (textStart % instructionSize ≠ 0) (.textMisaligned textStart)
  let textLength ← mul? p.text.length instructionSize
  let textStop ← segmentStop c.general.xlen .text textStart textLength.1
  let _ ← segmentStop c.general.xlen .data dataStart p.data.length
  clearOfHeap c.memory .text textStart textLength.1
  clearOfHeap c.memory .data dataStart p.data.length
  refuseIf (p.entry.any fun e => textLength.1 ≤ e ∨ e % instructionSize ≠ 0) .entryOutside
  return ⟨p, c, textStart, textStop, dataStart⟩

/-! ### The checks without steps that may fail -/

/-- Goes on where there is no fault. -/
def settle (fault : Option LayoutFault) (rest : BootM α) : BootM α :=
  match fault with
  | some fault => refuse fault
  | none => rest

theorem refuse_bind (fault : LayoutFault) (f : α → BootM β) : refuse fault >>= f = refuse fault :=
  rfl

theorem lift_bind (v : α) (f : α → BootM β) : (liftM (some v) : BootM α) >>= f = f v :=
  rfl

theorem settle_ite (fault : LayoutFault) (faults : Option LayoutFault) (rest : BootM α) :
    settle (if q then some fault else faults) rest =
      refuseIf q fault >>= fun _ => settle faults rest := by
  unfold refuseIf
  split <;> rfl

theorem settle_or (faults faults' : Option LayoutFault) (rest : BootM α) :
    settle (faults.or faults') rest = settle faults (settle faults' rest) := by
  cases faults <;> rfl

/-- What comes after a check may rely on it. -/
theorem refuseIf_bind_congr {fault : LayoutFault} {f g : Unit → BootM α}
    (h : ¬ q → f () = g ()) : refuseIf q fault >>= f = refuseIf q fault >>= g := by
  unfold refuseIf
  by_cases hq : q
  · rw [if_pos hq, refuse_bind, refuse_bind]
  · rw [if_neg hq, pure_bind, pure_bind, h hq]

theorem segmentStop_eq (x : Xlen) (segment : Segment) (start length : Nat) :
    segmentStop x segment start length = do
      refuseIf (x.maxAddress < start + length) (.segmentTooLong segment)
      return start + length := by
  have htop := x.maxAddress_lt_wordLimit
  unfold segmentStop
  by_cases hlt : start + length < wordLimit
  · rw [add?_of_lt hlt]
  · have hfar : x.maxAddress < start + length := by omega
    rw [add?, if_neg hlt, refuseIf, if_pos hfar]
    rfl

theorem clearOfHeap_eq (m : MemoryConfig) (segment : Segment) {start length : Nat}
    (hstop : start + length < wordLimit) : clearOfHeap m segment start length =
      refuseIf (start < start + length ∧ start < m.heapLimit ∧ m.heapBase < start + length)
        (.segmentInHeap segment start (start + length) m.heapBase m.heapLimit) := by
  unfold clearOfHeap
  rw [add?_of_lt hstop, lift_bind]
  simp only [Nat.lt_add_right_iff_pos]

/-- No step of the placement fails, as long as the length of text is a 64-bit number. -/
theorem place_eq (c : Config) {p : Program} (hlength : p.textLength < wordLimit) :
    place c p = settle (Setup.place c p).fault? (pure (Setup.place c p)) := by
  unfold place Setup.fault? Setup.heapFault?
  rw [mul?_of_lt hlength]
  simp only [lift_bind, segmentStop_eq, settle_ite, settle_or, bind_assoc, pure_bind]
  refine refuseIf_bind_congr fun _ => refuseIf_bind_congr fun htext => ?_
  refine refuseIf_bind_congr fun hdata => ?_
  have htop : c.general.xlen.maxAddress < wordLimit := c.general.xlen.maxAddress_lt_wordLimit
  -- The stops are in the address space by now, so that their sums fit.
  rw [clearOfHeap_eq _ _ (Nat.lt_of_le_of_lt (Nat.not_lt.1 htext) htop),
    clearOfHeap_eq _ _ (Nat.lt_of_le_of_lt (Nat.not_lt.1 hdata) htop)]
  rfl

end BootM

namespace Machine

open BootM

variable {x : Xlen} {c : Config} {p : Program}

/-- Puts the program into memory, and registers and program counter at the start. -/
def loadImage? (m : Machine x) : Option (Machine x) := do
  let s := m.setup
  let withText ← m.memory.storeBytes? s.textStart s.program.textBytes
  let loaded ← withText.storeBytes? s.dataStart s.program.data
  let entry ← add? s.textStart (s.program.entry.getD 0)
  return { m.modifyMemory fun _ => loaded with
    registers := initialRegisters s
    pc := BitVec.ofNat 64 entry.1 }

/-- The machine for a program under a configuration. -/
def boot? (c : Config) (p : Program) : BootM (Machine c.general.xlen) := do
  MonadExcept.ofExcept c.check
  let setup ← BootM.place c p
  loadImage? { blank c p with setup }

theorem loadImage?_eq {m : Machine x}
    (htext : m.setup.textStart + m.setup.program.textBytes.length < x.space)
    (hdata : m.setup.dataStart + m.setup.program.data.length < x.space)
    (hentry : m.setup.entryAddress < x.space) : m.loadImage? = some m.loadImage := by
  have hspace := x.space_le_wordLimit
  have hentry : m.setup.textStart + m.setup.program.entry.getD 0 < wordLimit :=
    Nat.lt_of_lt_of_le hentry hspace
  rw [loadImage?, Memory.storeBytes?_eq _ htext]
  dsimp only [Option.bind_eq_bind, Option.bind_some]
  rw [Memory.storeBytes?_eq _ hdata, Option.bind_some, add?_of_lt hentry]
  rfl

/-- No step of building a machine fails, as long as the length of text is a 64-bit number. -/
theorem boot?_eq (c : Config) (hlength : p.textLength < wordLimit) :
    (boot? c p).run = some (boot c p) := by
  rw [boot_eq, boot?, BootM.place_eq c hlength]
  cases c.check with
  | error e => rfl
  | ok u =>
    cases hfault : (Setup.place c p).fault? with
    | some fault => rfl
    | none =>
      have hfits := Setup.fault?_eq_none_iff.1 hfault
      have htop := c.general.xlen.maxAddress_lt_space
      have htext : (Setup.place c p).textStart + p.textBytes.length < c.general.xlen.space := by
        rw [Program.length_textBytes]
        exact Nat.lt_of_le_of_lt hfits.textStop_le htop
      have hload : (blank c p).loadImage? = some (blank c p).loadImage :=
        loadImage?_eq htext (Nat.lt_of_le_of_lt hfits.dataStop_le htop) (hfits.entryAddress_lt rfl)
      show (liftM (blank c p).loadImage? : BootM _).run = _
      rw [hload]
      rfl

/-- An image is accepted if and only if the configuration passes its check, its layout is
possible, and it has no byte at the largest address.  When it is accepted, no step of building
the machine overflows, and neither does the sum in the check of the configuration. -/
theorem boot_accepts (c : Config) (p : Program) :
    ((∃ m, boot c p = .ok m) ↔ c.check = .ok () ∧ (Setup.place c p).Possible ∧
      ∀ segment, c.general.xlen.maxAddress ∉ (Setup.place c p).addresses segment) ∧
    ∀ m, boot c p = .ok m → (boot? c p).run = some (.ok m) ∧
      c.memory.heapBase + headerSize c.general.xlen < wordLimit := by
  constructor
  · rw [exists_boot_iff]
    refine and_congr_right fun hcheck => Setup.place_fits_iff ?_
    have hroom := (Config.window_of_check hcheck).room
    have hpos := headerSize_pos c.general.xlen
    omega
  · intro m hm
    obtain ⟨hcheck, hfits, -⟩ := boot_eq_ok hm
    have htext : p.textLength < wordLimit :=
      Nat.lt_of_le_of_lt (Nat.le_trans (Nat.le_add_left _ _) hfits.textStop_le)
        c.general.xlen.maxAddress_lt_wordLimit
    have hwindow := Config.window_of_check hcheck
    exact ⟨by rw [boot?_eq c htext, hm], Nat.lt_of_le_of_lt hwindow.room hwindow.limit_lt_wordLimit⟩

/-- One byte of data at an address, beside one instruction, `addi zero, zero, 0`. -/
def withByteAt (address : Nat) : Program :=
  { text := [0x00000013#32], data := [0xAA], dataAddress := some address }

/-- A byte at the address below the largest one is accepted, and a byte at the largest one is
not, although its layout is possible as well. -/
theorem boot_accepts_topmost :
    (∃ m, boot {} (withByteAt 0xFFFFFFFE) = .ok m ∧
      (boot? {} (withByteAt 0xFFFFFFFE)).run = some (.ok m)) ∧
    (Setup.place {} (withByteAt 0xFFFFFFFF)).Possible ∧
      ¬ ∃ m, boot {} (withByteAt 0xFFFFFFFF) = .ok m := by
  obtain ⟨m, hm⟩ : ∃ m, boot {} (withByteAt 0xFFFFFFFE) = .ok m := ⟨_, rfl⟩
  have hin (segment : Segment) (a : Nat)
      (ha : a ∈ (Setup.place {} (withByteAt 0xFFFFFFFF)).addresses segment) :
      a < 4 ∨ a = 0xFFFFFFFF := by
    cases segment with
    | text => exact .inl ha.2
    | data => exact .inr (Nat.le_antisymm (Nat.le_of_lt_succ ha.2) ha.1)
  refine ⟨⟨m, hm, ((boot_accepts _ _).2 m hm).1⟩,
    ⟨by decide, ?_, fun segment a ha => ?_, fun segment a ha => ?_, by decide⟩, fun hboot => ?_⟩
  · rintro (_ | _) <;> decide
  · show a ≤ 0xFFFFFFFF
    have hin := hin segment a ha
    omega
  · show ¬ (0x10008000 ≤ a ∧ a < 0x40000000)
    have hin := hin segment a ha
    omega
  · obtain ⟨-, -, htop⟩ := (boot_accepts _ _).1.1 hboot
    exact htop .data ⟨by decide, by decide⟩

end Machine

end Hart
