/-
Where a program is placed.

A configuration without a fault leaves the allocator a window to work in, and a placement
without a fault puts text, data and entry point where they do not get in its way.

* `Config.window_of_check` — the heap is a window of the address space;
* `Fits.entryAddress_aligned` — a program is entered between instructions;
* `Setup.heapFault?_eq_none_iff` — a segment is clear of the heap by its single addresses;
* `Fits.disjoint_heap` — neither segment has an address in common with the heap;
* `Machine.boot_eq_ok` — a booted machine passed both checks, and is freshly loaded.
-/
import Mathlib.Order.CompletePartialOrder
import Mathlib.Order.Interval.Set.Disjoint
import Hart.Proofs.Heap.Represents
import Hart.Proofs.Image.Loading

namespace Hart

variable {c : Config} {p : Program}

/-- The heap of a configuration without a fault. -/
theorem Config.window_of_check (h : c.check = .ok ()) :
    Window c.general.xlen c.memory.heapBase c.memory.heapLimit := by
  unfold Config.check at h
  split at h
  · cases h
  rename_i hfault
  unfold Config.fault? at hfault
  dsimp only at hfault
  split at hfault
  · cases hfault
  rename_i hnull
  split at hfault
  · cases hfault
  rename_i haligned
  split at hfault
  · cases hfault
  split at hfault
  · cases hfault
  rename_i hroom
  split at hfault
  · cases hfault
  rw [Option.map_eq_none_iff, List.find?_eq_none] at hfault
  have hlimit := hfault ("heap_limit", c.memory.heapLimit,
    min (c.general.xlen.maxAddress + 1) (wordLimit - 1)) (by simp [Config.bounds])
  rw [decide_eq_true_eq] at hlimit
  exact
    { base_ne := hnull
      base_dvd := Nat.dvd_of_mod_eq_zero (Decidable.not_not.1 haligned)
      room := Nat.not_lt.1 hroom
      limit_le := Nat.not_lt.1 hlimit }

namespace Setup

variable {s : Setup}

/-- A placement that fits is entered between instructions. -/
theorem Fits.entryAddress_aligned (h : s.Fits) : s.entryAddress % instructionSize = 0 := by
  have hstart := h.textStart_aligned
  rw [entryAddress]
  cases hsome : s.program.entry with
  | none => exact hstart
  | some e =>
    have hentry : e % instructionSize = 0 := by
      by_contra hbad
      exact h.entry_inside e hsome (.inr hbad)
    rw [Option.getD_some, Nat.add_mod, hstart, hentry]
    rfl

/-- The addresses of a segment. -/
def addresses (s : Setup) : Segment → Set Nat
  | .text => Set.Ico s.textStart s.textStop
  | .data => Set.Ico s.dataStart s.dataStop

/-- A segment reaches into the heap exactly when it has a byte there. -/
theorem heapFault?_eq_none_iff (hroom : s.config.memory.heapBase < s.config.memory.heapLimit)
    (segment : Segment) : s.heapFault? segment = none ↔ ∀ a ∈ s.addresses segment,
      ¬ (s.config.memory.heapBase ≤ a ∧ a < s.config.memory.heapLimit) := by
  have hreach (start stop : Nat) : ¬ (start < stop ∧ start < s.config.memory.heapLimit ∧
      s.config.memory.heapBase < stop) ↔ ∀ a ∈ Set.Ico start stop,
        ¬ (s.config.memory.heapBase ≤ a ∧ a < s.config.memory.heapLimit) := by
    constructor
    · rintro hno a ⟨hstart, hstop⟩ ⟨hbase, hlimit⟩
      exact hno ⟨by omega, by omega, by omega⟩
    · -- The higher one of the two starts would be in both.
      rintro hout ⟨hstop, hlimit, hbase⟩
      rcases Nat.le_total start s.config.memory.heapBase with hle | hle
      · exact hout _ ⟨hle, hbase⟩ ⟨Nat.le_refl _, hroom⟩
      · exact hout _ ⟨Nat.le_refl _, hstop⟩ ⟨hle, hlimit⟩
  unfold heapFault?
  cases segment with
  | text => exact (ite_eq_right_iff.trans (by simp)).trans (hreach _ _)
  | data => exact (ite_eq_right_iff.trans (by simp)).trans (hreach _ _)

/-- A segment of a placement that fits has no address in common with the heap. -/
theorem Fits.disjoint_heap (h : s.Fits) (segment : Segment) :
    Disjoint (s.addresses segment)
      (Set.Ico s.config.memory.heapBase s.config.memory.heapLimit) := by
  rw [Set.disjoint_left]
  intro a ha hheap
  have hroom := Nat.lt_of_le_of_lt hheap.1 hheap.2
  exact (heapFault?_eq_none_iff hroom segment).1 (h.heapFault? segment) a ha hheap

end Setup

namespace Machine

/-- A booted machine passed the checks of configuration and placement, and nothing has
happened to it yet. -/
theorem boot_eq_ok {m : Machine c.general.xlen} (h : boot c p = .ok m) :
    c.check = .ok () ∧ (Setup.place c p).Fits ∧
      m.heap = Heap.empty c.general.xlen c.memory.heapBase c.memory.heapLimit
        c.heap.alwaysCalloc ∧ m.exitCode = none ∧ m.statistics = {} := by
  obtain ⟨hcheck, hfault, rfl⟩ := boot_eq_ok_iff.1 h
  exact ⟨hcheck, Setup.fits_of_fault?_eq_none hfault, rfl, rfl, rfl⟩

theorem statistics_boot {m : Machine c.general.xlen} (h : boot c p = .ok m) :
    m.statistics = {} :=
  (boot_eq_ok h).2.2.2.2

end Machine

end Hart
