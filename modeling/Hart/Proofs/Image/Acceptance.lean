/-
The images that fit.

* `Setup.Possible` — a layout that the address space and the heap leave room for, by its single
  addresses;
* `Setup.fault?_eq_none_iff` — the checks of a placement, one by one;
* `Setup.place_fits_iff` — a placement passes them if and only if it is possible and has no byte at the
  largest address.

Design notes: a segment is told by where it starts and by where it stops, one past its last byte,
and the stop is compared with the largest address.  So the byte at that address is lost, although
it is an address like any other.
-/
import Hart.Proofs.Image.Placement

namespace Hart

namespace Setup

variable {c : Config} {p : Program} {s : Setup}

/-- The address of the first byte of a segment. -/
def start (s : Setup) : Segment → Nat
  | .text => s.textStart
  | .data => s.dataStart

/-- A layout with room for everything.  Text starts at an instruction; both segments start in
the address space, have every byte there, and have none in the window of the heap; an entry point
is an instruction of text. -/
structure Possible (s : Setup) : Prop where
  textStart_aligned : s.textStart % 4 = 0
  start_le : ∀ segment, s.start segment ≤ s.config.general.xlen.maxAddress
  le_maxAddress : ∀ segment, ∀ a ∈ s.addresses segment, a ≤ s.config.general.xlen.maxAddress
  outside_heap : ∀ segment, ∀ a ∈ s.addresses segment,
    ¬ (s.config.memory.heapBase ≤ a ∧ a < s.config.memory.heapLimit)
  entry_inside : ∀ e ∈ s.program.entry, e % 4 = 0 ∧ e < s.program.textLength

/-! ### The checks -/

/-- A placement passes the checks exactly when it fits. -/
theorem fault?_eq_none_iff : s.fault? = none ↔ s.Fits := by
  refine ⟨fits_of_fault?_eq_none, fun h => ?_⟩
  have hentry : ¬ (s.program.entry.any fun e => s.EntryOutside e) = true := by
    rw [Option.any_eq_true]
    rintro ⟨e, he, houtside⟩
    exact h.entry_inside e he (of_decide_eq_true houtside)
  unfold fault?
  dsimp only
  rw [if_neg (not_not.2 h.textStart_aligned), if_neg (Nat.not_lt.2 h.textStop_le),
    if_neg (Nat.not_lt.2 h.dataStop_le), h.heapFault? .text, h.heapFault? .data, if_neg hentry]
  rfl

/-- A range stops at `top` or below exactly when it starts there, has every address there, and has
not `top` itself. -/
theorem add_le_top_iff (top start length : Nat) : start + length ≤ top ↔
    start ≤ top ∧ (∀ a ∈ Set.Ico start (start + length), a ≤ top) ∧
      top ∉ Set.Ico start (start + length) := by
  constructor
  · intro hstop
    refine ⟨by omega, fun a ha => ?_, fun htop => ?_⟩
    · have hlt := ha.2
      omega
    · have hlt := htop.2
      omega
  · rintro ⟨hstart, hle, htop⟩
    by_contra hstop
    exact htop ⟨hstart, Nat.not_le.1 hstop⟩

/-- A placement fits if and only if it is possible and has no byte at the largest address. -/
theorem place_fits_iff (hroom : c.memory.heapBase < c.memory.heapLimit) :
    (place c p).Fits ↔ (place c p).Possible ∧
      ∀ segment, c.general.xlen.maxAddress ∉ (place c p).addresses segment := by
  have htext := add_le_top_iff c.general.xlen.maxAddress (place c p).textStart p.textLength
  have hdata := add_le_top_iff c.general.xlen.maxAddress (place c p).dataStart p.data.length
  constructor
  · intro h
    obtain ⟨htextStart, htextLe, htextTop⟩ := htext.1 h.textStop_le
    obtain ⟨hdataStart, hdataLe, hdataTop⟩ := hdata.1 h.dataStop_le
    refine ⟨⟨h.textStart_aligned, ?_, ?_, fun segment => ?_, fun e he => ?_⟩, ?_⟩
    · rintro (_ | _)
      · exact htextStart
      · exact hdataStart
    · rintro (_ | _)
      · exact htextLe
      · exact hdataLe
    · exact (heapFault?_eq_none_iff hroom segment).1 (h.heapFault? segment)
    · have hinside := h.entry_inside e he
      rw [EntryOutside, not_or, not_not, Nat.not_le] at hinside
      exact hinside.symm
    · rintro (_ | _)
      · exact htextTop
      · exact hdataTop
  · rintro ⟨h, htop⟩
    exact
      { textStart_aligned := h.textStart_aligned
        textStop_le := htext.2 ⟨h.start_le .text, h.le_maxAddress .text, htop .text⟩
        dataStop_le := hdata.2 ⟨h.start_le .data, h.le_maxAddress .data, htop .data⟩
        heapFault? := fun segment =>
          (heapFault?_eq_none_iff hroom segment).2 (h.outside_heap segment)
        entry_inside := fun e he houtside => by
          obtain ⟨haligned, hlt⟩ := h.entry_inside e he
          rcases houtside with hle | hbad
          · exact absurd hlt (Nat.not_lt.2 hle)
          · exact hbad haligned }

end Setup

namespace Machine

variable {c : Config} {p : Program}

/-- A program boots exactly when the configuration passes its check and the placement fits. -/
theorem exists_boot_iff :
    (∃ m, boot c p = .ok m) ↔ c.check = .ok () ∧ (Setup.place c p).Fits := by
  constructor
  · rintro ⟨m, hm⟩
    exact ⟨(boot_eq_ok hm).1, (boot_eq_ok hm).2.1⟩
  · rintro ⟨hcheck, hfits⟩
    exact ⟨_, boot_eq_ok_iff.2 ⟨hcheck, Setup.fault?_eq_none_iff.2 hfits, rfl⟩⟩

end Machine

end Hart
