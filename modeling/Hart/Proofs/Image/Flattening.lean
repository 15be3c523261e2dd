/-
Laying out sections in any order.

Sections that have no address in common go into one buffer, which reaches from the lowest of
their addresses to the highest.

* `Section.Reach` — from where to where the sections that are not empty reach;
* `Section.Carries` — every byte of the sections is in its place, and zeros are elsewhere;
* `Section.flatten_of_reach` — the two numbers of `Reach` decide whether there is a buffer;
* `Section.flatten_lays_out` — exactly when laying out fails, what its buffer is, and that the
  order of the sections does not matter.

Design notes: an empty section covers no address, so it may lie inside another one.  Sections
that reach over a range whose length is no 64-bit number are among those that reach too far.
-/
import Mathlib.Data.Finset.Max
import Hart.Proofs.Image.Layout

namespace Hart.Section

instance (s : Section) (c : Nat) : Decidable (s.Covers c) :=
  inferInstanceAs (Decidable (_ ∧ _))

/-- No address is that of a byte of both sections. -/
def Disjoint (s t : Section) : Prop := ∀ a, ¬ (s.Covers a ∧ t.Covers a)

/-- The sections that are not empty reach from `start` to the address before `stop`. -/
structure Reach (sections : List Section) (start stop : Nat) : Prop where
  start_mem : ∃ s ∈ sections, s.bytes ≠ [] ∧ s.address = start
  start_le : ∀ s ∈ sections, s.bytes ≠ [] → start ≤ s.address
  stop_mem : ∃ s ∈ sections, s.bytes ≠ [] ∧ s.stop = stop
  stop_le : ∀ s ∈ sections, s.bytes ≠ [] → s.stop ≤ stop

/-- The buffer, at the address `start`, has every byte of the sections in its place, and
zeros where there is none. -/
structure Carries (sections : List Section) (start : Nat) (buffer : List UInt8) : Prop where
  byte : ∀ s ∈ sections, ∀ i (hi : i < s.bytes.length),
    buffer[s.address + i - start]? = some s.bytes[i]
  zero : ∀ j < buffer.length, (∀ s ∈ sections, ¬ s.Covers (start + j)) → buffer[j]? = some 0

variable {sections others : List Section} {s t : Section} {start stop start' stop' : Nat}
  {buffer buffer' : List UInt8} {e : ImageError}

/-! ### Sections that have no address in common -/

theorem address_lt_stop (h : s.bytes ≠ []) : s.address < s.stop :=
  Nat.lt_add_of_pos_right (List.length_pos_iff.2 h)

/-- Of two sections with bytes and no address in common, one ends before the other starts. -/
theorem Disjoint.separate (h : s.Disjoint t) (hs : s.bytes ≠ []) (ht : t.bytes ≠ []) :
    s.Separate t := by
  have hsstop := address_lt_stop hs
  have htstop := address_lt_stop ht
  by_contra hoverlap
  rw [Separate, not_or, Nat.not_le, Nat.not_le] at hoverlap
  -- Both would cover the higher one of the two first addresses.
  rcases Nat.le_total s.address t.address with hle | hle
  · exact h t.address ⟨⟨hle, hoverlap.1⟩, Nat.le_refl _, htstop⟩
  · exact h s.address ⟨⟨Nat.le_refl _, hsstop⟩, hle, hoverlap.2⟩

theorem arranged_filter (sections : List Section) :
    arranged (sections.filter fun s => !s.bytes.isEmpty) = arranged sections := by
  simp only [arranged, List.filter_filter, Bool.and_self]

theorem flatten_filter (sections : List Section) :
    flatten (sections.filter fun s => !s.bytes.isEmpty) = flatten sections := by
  rw [flatten, flatten, arranged_filter]

theorem separate_filter (h : sections.Pairwise Disjoint) :
    (sections.filter fun s => !s.bytes.isEmpty).Pairwise Separate := by
  refine (h.filter _).imp_of_mem fun {s t} hs ht hst => hst.separate ?_ ?_
  · simpa using (List.mem_filter.1 hs).2
  · simpa using (List.mem_filter.1 ht).2

/-- What laying out sections that have no address in common leads to. -/
theorem flatten_holds_of_disjoint (h : sections.Pairwise Disjoint)
    (hflatten : flatten sections = .ok (start, buffer)) :
    (arranged sections = [] ∧ buffer = []) ∨ Holds (arranged sections) start buffer := by
  rw [← flatten_filter] at hflatten
  rw [← arranged_filter]
  exact flatten_holds (separate_filter h) hflatten

/-- There is only one way to arrange sections that have no address in common. -/
theorem arranged_eq_of_perm (h : sections.Pairwise Disjoint) (hperm : others.Perm sections) :
    arranged others = arranged sections := by
  have hothers : others.Pairwise Disjoint :=
    (hperm.pairwise_iff fun hst a ha => hst a ha.symm).2 h
  have hordered (l : List Section) (hl : l.Pairwise Disjoint) :
      (arranged l).Pairwise fun s t => s.stop ≤ t.address := by
    rw [← arranged_filter]
    exact arranged_ordered (separate_filter hl)
  have hsame : (arranged others).Perm (arranged sections) :=
    (List.mergeSort_perm _ _).trans ((hperm.filter _).trans (List.mergeSort_perm _ _).symm)
  refine hsame.eq_of_pairwise (fun s t hs ht hst hts => ?_) (hordered _ hothers) (hordered _ h)
  have hsstop := address_lt_stop (mem_arranged.1 hs).2
  have htstop := address_lt_stop (mem_arranged.1 ht).2
  omega

/-! ### How far sections reach -/

theorem exists_reach (h : arranged sections ≠ []) : ∃ start stop, Reach sections start stop := by
  have hfull : (arranged sections).toFinset.Nonempty := List.toFinset_nonempty_iff _ |>.2 h
  obtain ⟨first, hfirst, hmin⟩ := Finset.exists_min_image _ address hfull
  obtain ⟨last, hlast, hmax⟩ := Finset.exists_max_image _ Section.stop hfull
  have hmem (s : Section) : s ∈ (arranged sections).toFinset ↔ s ∈ sections ∧ s.bytes ≠ [] :=
    List.mem_toFinset.trans mem_arranged
  obtain ⟨hfirst, hfirstne⟩ := (hmem first).1 hfirst
  obtain ⟨hlast, hlastne⟩ := (hmem last).1 hlast
  exact ⟨first.address, last.stop,
    { start_mem := ⟨first, hfirst, hfirstne, rfl⟩
      start_le := fun s hs hne => hmin s ((hmem s).2 ⟨hs, hne⟩)
      stop_mem := ⟨last, hlast, hlastne, rfl⟩
      stop_le := fun s hs hne => hmax s ((hmem s).2 ⟨hs, hne⟩) }⟩

theorem Reach.unique (h : Reach sections start stop) (h' : Reach sections start' stop') :
    start = start' ∧ stop = stop' := by
  obtain ⟨s, hs, hsne, rfl⟩ := h.start_mem
  obtain ⟨s', hs', hsne', rfl⟩ := h'.start_mem
  obtain ⟨t, ht, htne, rfl⟩ := h.stop_mem
  obtain ⟨t', ht', htne', rfl⟩ := h'.stop_mem
  exact ⟨Nat.le_antisymm (h.start_le s' hs' hsne') (h'.start_le s hs hsne),
    Nat.le_antisymm (h'.stop_le t ht htne) (h.stop_le t' ht' htne')⟩

/-- Laying out sections that reach from `start` to `stop`. -/
theorem flatten_of_reach (h : Reach sections start stop) :
    flatten sections = if maxSpan < stop - start then .error (.unsupported .spread)
      else .ok (start, (arranged sections).foldl
        (fun buffer s => place buffer (s.address - start) s.bytes) []) := by
  obtain ⟨s, hs, hne, hstart⟩ := h.start_mem
  have hs : s ∈ arranged sections := mem_arranged.2 ⟨hs, hne⟩
  unfold flatten
  have hsorted := arranged_sorted sections
  cases harranged : arranged sections with
  | nil =>
    rw [harranged] at hs
    cases hs
  | cons first rest =>
    rw [harranged] at hs hsorted
    have hfirst : first.address = start := by
      obtain ⟨hmem, hfull⟩ := mem_arranged.1 (harranged ▸ List.mem_cons_self)
      refine Nat.le_antisymm ?_ (h.start_le first hmem hfull)
      rcases List.mem_cons.1 hs with rfl | hs
      · exact Nat.le_of_eq hstart
      · exact hstart ▸ (List.pairwise_cons.1 hsorted).1 s hs
    -- Some section ends too far away exactly when the last one does.
    have hspread : ((first :: rest).any fun s => maxSpan < s.stop - first.address) = true ↔
        maxSpan < stop - start := by
      rw [List.any_eq_true, ← harranged, hfirst]
      constructor
      · rintro ⟨t, ht, hfar⟩
        obtain ⟨ht, htne⟩ := mem_arranged.1 ht
        have hle := h.stop_le t ht htne
        have hfar := of_decide_eq_true hfar
        omega
      · intro hfar
        obtain ⟨t, ht, htne, rfl⟩ := h.stop_mem
        exact ⟨t, mem_arranged.2 ⟨ht, htne⟩, decide_eq_true hfar⟩
    dsimp only
    rw [if_congr hspread rfl rfl, hfirst]

/-! ### What the buffer holds -/

theorem Holds.reach (h : Holds (arranged sections) start buffer) :
    Reach sections start (start + buffer.length) := by
  obtain ⟨s, hs, hstart⟩ := h.start_mem
  have hsne := mem_arranged.1 hs
  have hsstop := address_lt_stop hsne.2
  have hsle := h.stop_le s hs
  obtain ⟨t, ht, htstop⟩ := h.stop_mem (buffer.length - 1) (by omega)
  have hle := h.stop_le t ht
  have htne := mem_arranged.1 ht
  exact
    { start_mem := ⟨s, hsne.1, hsne.2, hstart⟩
      start_le := fun s hs hne => h.start_le s (mem_arranged.2 ⟨hs, hne⟩)
      stop_mem := ⟨t, htne.1, htne.2, by omega⟩
      stop_le := fun s hs hne => h.stop_le s (mem_arranged.2 ⟨hs, hne⟩) }

theorem Holds.carries (h : Holds (arranged sections) start buffer) :
    Carries sections start buffer where
  byte s hs i hi := by
    have harranged : s ∈ arranged sections :=
      mem_arranged.2 ⟨hs, List.length_pos_iff.1 (Nat.zero_lt_of_lt hi)⟩
    have hstart := h.start_le s harranged
    rw [Nat.sub_add_comm hstart, h.byte s harranged i hi, List.getElem?_eq_getElem hi]
  zero j hj hout := h.gap j hj fun s hs => hout s (mem_arranged.1 hs).1

/-- Only one buffer of a length carries the sections. -/
theorem Carries.unique (h : Carries sections start buffer) (h' : Carries sections start buffer')
    (hlength : buffer.length = buffer'.length) : buffer = buffer' := by
  refine List.ext_getElem? fun j => ?_
  by_cases hj : j < buffer.length
  · by_cases hcovered : ∃ s ∈ sections, s.Covers (start + j)
    · obtain ⟨s, hs, hlow, hhigh⟩ := hcovered
      have hi : start + j - s.address < s.bytes.length := by
        rw [Section.stop] at hhigh
        omega
      have hj : s.address + (start + j - s.address) - start = j := by omega
      have hbyte := h.byte s hs _ hi
      have hbyte' := h'.byte s hs _ hi
      rw [hj] at hbyte hbyte'
      rw [hbyte, hbyte']
    · have hout (s : Section) (hs : s ∈ sections) : ¬ s.Covers (start + j) :=
        fun hcovers => hcovered ⟨s, hs, hcovers⟩
      rw [h.zero j hj hout, h'.zero j (hlength ▸ hj) hout]
  · rw [List.getElem?_eq_none (Nat.not_lt.1 hj), List.getElem?_eq_none (by omega)]

/-! ### Laying out -/

theorem arranged_eq_nil_iff : arranged sections = [] ↔ ∀ s ∈ sections, s.bytes = [] := by
  rw [List.eq_nil_iff_forall_not_mem]
  simp only [mem_arranged, not_and, not_not]

theorem flatten_of_empty (h : ∀ s ∈ sections, s.bytes = []) : flatten sections = .ok (0, []) := by
  rw [flatten, arranged_eq_nil_iff.2 h]

/-- Laying out fails when the sections reach too far, and in no other way. -/
theorem flatten_eq_error_iff : flatten sections = .error e ↔
    e = .unsupported .spread ∧ ∃ start stop, Reach sections start stop ∧ maxSpan < stop - start := by
  constructor
  · intro h
    by_cases hempty : ∀ s ∈ sections, s.bytes = []
    · rw [flatten_of_empty hempty] at h
      cases h
    · obtain ⟨start, stop, hreach⟩ := exists_reach (mt arranged_eq_nil_iff.1 hempty)
      rw [flatten_of_reach hreach] at h
      split at h
      · cases h
        exact ⟨rfl, start, stop, hreach, ‹_›⟩
      · cases h
  · rintro ⟨rfl, start, stop, hreach, hfar⟩
    rw [flatten_of_reach hreach, if_pos hfar]

/-- What there is when laying out succeeds. -/
theorem flatten_spec (h : sections.Pairwise Disjoint)
    (hflatten : flatten sections = .ok (start, buffer)) :
    ((∀ s ∈ sections, s.bytes = []) ∧ start = 0 ∧ buffer = []) ∨
      ∃ stop, Reach sections start stop ∧ stop - start ≤ maxSpan ∧
        buffer.length = stop - start ∧ Carries sections start buffer := by
  rcases flatten_holds_of_disjoint h hflatten with ⟨hnone, rfl⟩ | hholds
  · have hempty := arranged_eq_nil_iff.1 hnone
    rw [flatten_of_empty hempty] at hflatten
    cases hflatten
    exact .inl ⟨hempty, rfl, rfl⟩
  · right
    have hreach := hholds.reach
    refine ⟨_, hreach, Nat.not_lt.1 fun hfar => ?_, by omega, hholds.carries⟩
    rw [flatten_of_reach hreach, if_pos hfar] at hflatten
    cases hflatten

/-- Sections that have no address in common.  Laying them out fails if and only if they reach
over more than 4 GiB.  Otherwise the result is the lowest address of a section that is not
empty, and a buffer from there to the highest one that has every byte at its place and zeros
between the sections; it is zero and nothing if all sections are empty.  The order of the
sections does not matter. -/
theorem flatten_lays_out (h : sections.Pairwise Disjoint) :
    (∀ e, flatten sections = .error e ↔ e = .unsupported .spread ∧
      ∃ start stop, Reach sections start stop ∧ 2 ^ 32 < stop - start) ∧
    (∀ start buffer, flatten sections = .ok (start, buffer) ↔
      ((∀ s ∈ sections, s.bytes = []) ∧ start = 0 ∧ buffer = []) ∨
        ∃ stop, Reach sections start stop ∧ stop - start ≤ 2 ^ 32 ∧
          buffer.length = stop - start ∧ Carries sections start buffer) ∧
    ∀ others, others.Perm sections → flatten others = flatten sections := by
  refine ⟨fun e => flatten_eq_error_iff, fun start buffer => ⟨flatten_spec h, ?_⟩,
    fun others hperm => ?_⟩
  · rintro (⟨hempty, rfl, rfl⟩ | ⟨stop, hreach, hnear, hlength, hcarries⟩)
    · exact flatten_of_empty hempty
    · -- There is a buffer, and there is only one like it.
      cases hflatten : flatten sections with
      | error e =>
        obtain ⟨-, start', stop', hreach', hfar⟩ := flatten_eq_error_iff.1 hflatten
        obtain ⟨rfl, rfl⟩ := hreach.unique hreach'
        exact absurd hfar (Nat.not_lt.2 hnear)
      | ok result =>
        obtain ⟨start', buffer'⟩ := result
        rcases flatten_spec h hflatten with
          ⟨hempty, -, -⟩ | ⟨stop', hreach', -, hlength', hcarries'⟩
        · obtain ⟨s, hs, hne, -⟩ := hreach.start_mem
          exact absurd (hempty s hs) hne
        · obtain ⟨rfl, rfl⟩ := hreach.unique hreach'
          rw [hcarries.unique hcarries' (hlength.trans hlength'.symm)]
  · rw [flatten, flatten, arranged_eq_of_perm h hperm]

/-- Two sections and an empty one inside the range between them, out of order. -/
def scattered : List Section :=
  [⟨0x11004, [3]⟩, ⟨0x11003, []⟩, ⟨0x11000, [1, 2]⟩]

theorem flatten_lays_out_scattered :
    scattered.Pairwise Disjoint ∧ flatten scattered = .ok (0x11000, [1, 2, 0, 0, 3]) := by
  have hdisjoint : scattered.Pairwise Disjoint := by
    simp [scattered, Disjoint, Covers, Section.stop]
    omega
  have hreach : Reach scattered 0x11000 0x11005 := ⟨by decide, by decide, by decide, by decide⟩
  have hcarries : Carries scattered 0x11000 [1, 2, 0, 0, 3] := ⟨by decide, by decide⟩
  exact ⟨hdisjoint, ((flatten_lays_out hdisjoint).2.1 _ _).2
    (.inr ⟨_, hreach, by decide, by decide, hcarries⟩)⟩

end Hart.Section
