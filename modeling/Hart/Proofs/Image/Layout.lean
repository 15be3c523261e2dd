/-
Sections in a buffer.

`Section.Holds sections start buffer` says that a buffer, thought to lie at
`start`, has every section at its address, zeros elsewhere, and no more than that.

* `Section.flatten_holds` — what laying out sections that do not overlap leads to;
* `Program.ofSections?_spec` — the two buffers of a program of sections.

Design notes: the sections are placed in the order of their addresses, so each one
lies behind what the buffer already holds (`Holds.concat`), and placing it never
overwrites anything.
-/
import Hart.Image.Sections

namespace Hart

/-- A sequence succeeds when both of its steps do. -/
theorem bind_eq_ok_iff {ε α β : Type} {v : Except ε α} {f : α → Except ε β} {w : β} :
    (v >>= f) = .ok w ↔ ∃ u, v = .ok u ∧ f u = .ok w := by
  constructor
  · intro h
    cases v with
    | error e => cases h
    | ok u => exact ⟨u, rfl, h⟩
  · rintro ⟨u, rfl, h⟩
    exact h

namespace Section

/-- The address is that of a byte of the section. -/
def Covers (s : Section) (c : Nat) : Prop := s.address ≤ c ∧ c < s.stop

/-- The sections have no address in common. -/
def Separate (s t : Section) : Prop := s.stop ≤ t.address ∨ t.stop ≤ s.address

theorem Separate.symm {s t : Section} (h : s.Separate t) : t.Separate s :=
  Or.symm h

/-- The buffer, at the address `start`, holds the sections and nothing else. -/
structure Holds (sections : List Section) (start : Nat) (buffer : List UInt8) : Prop where
  start_mem : ∃ s ∈ sections, s.address = start
  start_le : ∀ s ∈ sections, start ≤ s.address
  stop_le : ∀ s ∈ sections, s.stop ≤ start + buffer.length
  stop_mem : ∀ j < buffer.length, ∃ s ∈ sections, start + j < s.stop
  byte : ∀ s ∈ sections, ∀ i < s.bytes.length, buffer[s.address - start + i]? = s.bytes[i]?
  gap : ∀ j < buffer.length, (∀ s ∈ sections, ¬ s.Covers (start + j)) → buffer[j]? = some 0

variable {sections placed rest : List Section} {s : Section} {start offset : Nat}
  {buffer bytes : List UInt8}

/-- Behind the end of a buffer placing appends, after zeros. -/
theorem place_of_le (h : buffer.length ≤ offset) :
    place buffer offset bytes = buffer ++ List.replicate (offset - buffer.length) 0 ++ bytes := by
  have hdrop : buffer.drop (offset + bytes.length) = [] := List.drop_eq_nil_of_le (by omega)
  rw [place, List.take_of_length_le h, hdrop, List.append_nil]

/-- The bytes of a buffer after placing behind its end. -/
theorem getElem?_place (h : buffer.length ≤ offset) (j : Nat) :
    (place buffer offset bytes)[j]? =
      if j < buffer.length then buffer[j]? else if j < offset then some 0
      else bytes[j - offset]? := by
  rw [place_of_le h]
  by_cases hold : j < buffer.length
  · rw [if_pos hold, List.append_assoc, List.getElem?_append_left hold]
  · rw [if_neg hold]
    by_cases hgap : j < offset
    · rw [if_pos hgap, List.getElem?_append_left (by simp; omega), List.getElem?_append_right (by omega),
        List.getElem?_replicate, if_pos (by omega)]
    · rw [if_neg hgap, List.getElem?_append_right (by simp; omega)]
      congr 1
      simp
      omega

theorem length_place (h : buffer.length ≤ offset) :
    (place buffer offset bytes).length = offset + bytes.length := by
  rw [place_of_le h]
  simp
  omega

/-- A section behind the buffer is added to it. -/
theorem Holds.concat (h : Holds placed start buffer) (hs : start + buffer.length ≤ s.address) :
    Holds (placed ++ [s]) start (place buffer (s.address - start) s.bytes) := by
  have hoffset : buffer.length ≤ s.address - start := by omega
  have hlength : (place buffer (s.address - start) s.bytes).length =
      s.address - start + s.bytes.length := length_place hoffset
  have hstop : s.stop = start + (place buffer (s.address - start) s.bytes).length := by
    rw [hlength, stop]
    omega
  constructor
  · obtain ⟨t, ht, hstart⟩ := h.start_mem
    exact ⟨t, List.mem_append_left _ ht, hstart⟩
  · intro t ht
    rcases List.mem_append.1 ht with ht | ht
    · exact h.start_le t ht
    · rw [List.mem_singleton.1 ht]
      omega
  · intro t ht
    rcases List.mem_append.1 ht with ht | ht
    · have hle := h.stop_le t ht
      omega
    · rw [List.mem_singleton.1 ht]
      exact Nat.le_of_eq hstop
  · intro j hj
    refine ⟨s, by simp, ?_⟩
    omega
  · intro t ht i hi
    rw [getElem?_place hoffset]
    rcases List.mem_append.1 ht with ht | ht
    · have hstart := h.start_le t ht
      have hle := h.stop_le t ht
      rw [stop] at hle
      rw [if_pos (by omega)]
      exact h.byte t ht i hi
    · rw [List.mem_singleton.1 ht, if_neg (by omega), if_neg (by omega), Nat.add_sub_cancel_left]
  · intro j hj hout
    rw [getElem?_place hoffset]
    by_cases hold : j < buffer.length
    · rw [if_pos hold]
      exact h.gap j hold fun t ht => hout t (List.mem_append_left _ ht)
    · -- Behind the old buffer an address of no section is before the new one.
      have hbefore : j < s.address - start :=
        Nat.lt_of_not_le fun hge => hout s (by simp) ⟨by omega, by omega⟩
      rw [if_neg hold, if_pos hbefore]

theorem holds_singleton (s : Section) : Holds [s] s.address (place [] 0 s.bytes) := by
  have hbuffer : place [] 0 s.bytes = s.bytes := by simp [place]
  rw [hbuffer]
  constructor
  · exact ⟨s, List.mem_singleton.2 rfl, rfl⟩
  · intro t ht
    exact Nat.le_of_eq (congrArg address (List.mem_singleton.1 ht).symm)
  · intro t ht
    exact Nat.le_of_eq (congrArg stop (List.mem_singleton.1 ht))
  · intro j hj
    exact ⟨s, List.mem_singleton.2 rfl, Nat.add_lt_add_left hj _⟩
  · intro t ht i _
    rw [List.mem_singleton.1 ht, Nat.sub_self, Nat.zero_add]
  · intro j hj hout
    exact absurd ⟨Nat.le_add_right _ _, Nat.add_lt_add_left hj _⟩ (hout s (List.mem_singleton.2 rfl))

/-- Sections in order behind a buffer are added to it one by one. -/
theorem Holds.foldl_place (h : Holds placed start buffer)
    (hrest : rest.Pairwise fun s t => s.stop ≤ t.address)
    (hbehind : ∀ s ∈ rest, start + buffer.length ≤ s.address) :
    Holds (placed ++ rest) start
      (rest.foldl (fun buffer s => place buffer (s.address - start) s.bytes) buffer) := by
  -- Induction on the sections still to come; the buffer so far is generalised.
  induction rest generalizing placed buffer with
  | nil =>
    rw [List.append_nil]
    exact h
  | cons s rest ih =>
    obtain ⟨hs, hrest⟩ := List.pairwise_cons.1 hrest
    have hbehinds := hbehind s List.mem_cons_self
    have hlength : (place buffer (s.address - start) s.bytes).length =
        s.address - start + s.bytes.length := length_place (by omega)
    have hstep := ih (h.concat hbehinds) hrest fun t ht => by
      have hle := hs t ht
      rw [stop] at hle
      omega
    rw [List.append_assoc, List.singleton_append] at hstep
    exact hstep

/-- The buffer reaches from the first section to the end of the last one. -/
theorem Holds.mem_span_iff (h : Holds sections start buffer) {c : Nat} :
    (start ≤ c ∧ c < start + buffer.length) ↔
      (∃ s ∈ sections, s.address ≤ c) ∧ ∃ s ∈ sections, c < s.stop := by
  constructor
  · rintro ⟨hlow, hhigh⟩
    obtain ⟨s, hs, hstart⟩ := h.start_mem
    obtain ⟨t, ht, hstop⟩ := h.stop_mem (c - start) (by omega)
    exact ⟨⟨s, hs, by omega⟩, t, ht, by omega⟩
  · rintro ⟨⟨s, hs, hlow⟩, t, ht, hhigh⟩
    have hstart := h.start_le s hs
    have hstop := h.stop_le t ht
    exact ⟨by omega, by omega⟩

/-! ### The order of sections -/

theorem mem_arranged : s ∈ arranged sections ↔ s ∈ sections ∧ s.bytes ≠ [] := by
  simp [arranged]

theorem arranged_eq_self (hne : ∀ s ∈ sections, s.bytes ≠ [])
    (hordered : sections.Pairwise fun s t => s.address ≤ t.address) :
    arranged sections = sections := by
  have hfilter : sections.filter (fun s => !s.bytes.isEmpty) = sections := by
    simpa [List.filter_eq_self] using hne
  rw [arranged, hfilter]
  exact List.mergeSort_of_pairwise (by simpa using hordered)

theorem arranged_sorted (sections : List Section) :
    (arranged sections).Pairwise fun s t => s.address ≤ t.address := by
  have hmerge := @List.pairwise_mergeSort Section (fun s t => decide (s.address ≤ t.address))
    (by simpa using fun a b c => Nat.le_trans) (by simpa using fun a b => Nat.le_total _ _)
    (sections.filter fun s => !s.bytes.isEmpty)
  simpa [arranged] using hmerge

/-- Sections that do not overlap lie one behind the other once they are arranged. -/
theorem arranged_ordered (h : sections.Pairwise Separate) :
    (arranged sections).Pairwise fun s t => s.stop ≤ t.address := by
  have hsorted := arranged_sorted sections
  have hseparate : (arranged sections).Pairwise Separate :=
    ((List.mergeSort_perm _ _).pairwise_iff fun hst => hst.symm).2 (h.filter _)
  -- Of two that are sorted and separate, the first ends before the second starts.
  have hboth := List.pairwise_and_iff.2 ⟨hsorted, hseparate⟩
  refine hboth.imp_of_mem fun {s t} _ ht ⟨hle, hst⟩ => ?_
  have hpos : 0 < t.bytes.length := List.length_pos_iff.2 (mem_arranged.1 ht).2
  rcases hst with hst | hst
  · exact hst
  · rw [stop] at hst
    omega

/-- What laying out sections that do not overlap leads to. -/
theorem flatten_holds (hsections : sections.Pairwise Separate)
    (h : flatten sections = .ok (start, buffer)) :
    (arranged sections = [] ∧ buffer = []) ∨ Holds (arranged sections) start buffer := by
  have hordered := arranged_ordered hsections
  unfold flatten at h
  cases harranged : arranged sections with
  | nil =>
    rw [harranged] at h
    cases h
    exact .inl ⟨rfl, rfl⟩
  | cons first rest =>
    rw [harranged] at h hordered
    obtain ⟨hfirst, hrest⟩ := List.pairwise_cons.1 hordered
    dsimp only at h
    split at h
    · cases h
    · cases h
      -- The first section starts the buffer, and every other one lies behind it.
      right
      have hone := holds_singleton first
      rw [List.foldl_cons, Nat.sub_self]
      refine hone.foldl_place hrest fun s hs => ?_
      have hlength : (place [] 0 first.bytes).length = first.bytes.length := by
        rw [length_place (Nat.zero_le _), Nat.zero_add]
      rw [hlength]
      exact hfirst s hs

end Section

/-! ### Programs of sections -/

/-- Bytes are those of the number that they spell. -/
theorem toBytes_littleEndian (bytes : List UInt8) :
    toBytes bytes.length (littleEndian bytes) = bytes := by
  induction bytes with
  | nil => rfl
  | cons b rest ih =>
    have hlow : UInt8.ofNat (b.toNat + 256 * littleEndian rest) = b := by
      apply UInt8.toNat_inj.1
      simp
    have hhigh : (b.toNat + 256 * littleEndian rest) / 256 = littleEndian rest := by
      have hb := b.toNat_lt
      omega
    rw [List.length_cons, littleEndian, toBytes, hlow, hhigh, ih]

theorem bytesOfWords_cons (w : BitVec 32) (ws : List (BitVec 32)) :
    Program.bytesOfWords (w :: ws) = toBytes instructionSize w.toNat ++ Program.bytesOfWords ws :=
  List.flatMap_cons

/-- The bytes of the words that a text spells are the text. -/
theorem bytesOfWords_of_wordsOfBytes? {bytes : List UInt8} {ws : List (BitVec 32)}
    (h : wordsOfBytes? bytes = some ws) : Program.bytesOfWords ws = bytes := by
  -- Along the recursion of `wordsOfBytes?`, four bytes at a time.
  induction bytes using wordsOfBytes?.induct generalizing ws with
  | case1 =>
    cases h
    rfl
  | case2 b₀ b₁ b₂ b₃ rest ih =>
    rw [wordsOfBytes?] at h
    obtain ⟨ws', hrest, rfl⟩ := Option.map_eq_some_iff.1 h
    have hlt : littleEndian [b₀, b₁, b₂, b₃] < 2 ^ 32 := by
      have h₀ := b₀.toNat_lt
      have h₁ := b₁.toNat_lt
      have h₂ := b₂.toNat_lt
      have h₃ := b₃.toNat_lt
      simp only [littleEndian]
      omega
    have hword : toBytes instructionSize (BitVec.ofNat 32 (littleEndian [b₀, b₁, b₂, b₃])).toNat =
        [b₀, b₁, b₂, b₃] := by
      rw [BitVec.toNat_ofNat, Nat.mod_eq_of_lt hlt]
      exact toBytes_littleEndian [b₀, b₁, b₂, b₃]
    rw [bytesOfWords_cons, hword, ih hrest]
    rfl
  | case3 bytes hnil hcons =>
    rw [wordsOfBytes?] at h
    · cases h
    · exact hnil
    · exact hcons

namespace Program

variable {T D : List Section} {entry : Nat} {p : Program}

/-- The two buffers that a program of sections is made of. -/
theorem ofSections?_spec (h : ofSections? T D entry = .ok p) :
    ∃ textStart dataStart text, Section.flatten T = .ok (textStart, text) ∧ text ≠ [] ∧
      Section.flatten D = .ok (dataStart, p.data) ∧ p.textBytes = text ∧
      p.textAddress = some textStart ∧ (p.data ≠ [] → p.dataAddress = some dataStart) := by
  unfold ofSections? at h
  obtain ⟨⟨textStart, text⟩, htext, h⟩ := bind_eq_ok_iff.1 h
  dsimp only at h
  by_cases hempty : text.isEmpty = true
  · rw [if_pos hempty] at h
    cases h
  rw [if_neg hempty] at h
  obtain ⟨⟨dataStart, data⟩, hdata, h⟩ := bind_eq_ok_iff.1 h
  obtain ⟨ws, hws, h⟩ := bind_eq_ok_iff.1 h
  cases h
  refine ⟨textStart, dataStart, text, htext, by simpa using hempty, hdata, ?_, rfl, fun hne => ?_⟩
  · unfold textWords at hws
    split at hws
    · cases hws
      exact bytesOfWords_of_wordsOfBytes? ‹_›
    · cases hws
  · have hfull : ¬ data.isEmpty = true := by simpa using hne
    exact if_neg hfull

end Program

end Hart
