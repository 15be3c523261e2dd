/-
What a walk over the blocks has seen.

`Arena.Represents` starts from a list of blocks and says that memory holds it.  This
module goes the other way, from what the allocator itself can tell: when the walk over
the blocks succeeds and its headers are those of a heap in order, the arena holds just
these blocks.

* `Arena.header_eq_ok` — what a header went through when it was reached;
* `Arena.header_of_allocated`, `Arena.header_of_firstFit?` — the searches end at headers
  that were read;
* `Arena.Walked` — the headers that the links to the next one lead through;
* `consistent_of_wellFormed` — a well-formed list of headers stands for a consistent
  arena, and for no other headers than those of its blocks;
* `Arena.Orderly` — an arena with such a list, as every run of requests leaves it
  (`Session.Reachable.orderly`).
-/
import Hart.Proofs.Heap.WellFormed

namespace Hart

variable {x : Xlen}

/-! ### Headers that were read -/

/-- The four cells behind a header. -/
theorem Header.load_eq_ok {m : Memory x} {address : Nat} {b : Header}
    (h : Header.load m address = .ok b) :
    b.address = address ∧ m.loadCell address = .ok b.size ∧
      m.loadCell (address + x.bytes) = .ok b.state ∧
      m.loadCell (address + 2 * x.bytes) = .ok b.next ∧
      m.loadCell (address + 3 * x.bytes) = .ok b.prev := by
  unfold Header.load at h
  simp only [Nat.zero_mul, Nat.add_zero, Nat.one_mul] at h
  cases hsize : m.loadCell address with
  | error e => rw [hsize] at h; cases h
  | ok size =>
  cases hstate : m.loadCell (address + x.bytes) with
  | error e => rw [hsize, hstate] at h; cases h
  | ok state =>
  cases hnext : m.loadCell (address + 2 * x.bytes) with
  | error e => rw [hsize, hstate, hnext] at h; cases h
  | ok next =>
  cases hprev : m.loadCell (address + 3 * x.bytes) with
  | error e => rw [hsize, hstate, hnext, hprev] at h; cases h
  | ok prev =>
  rw [hsize, hstate, hnext, hprev] at h
  -- A state other than the two is no header.
  match state, h with
  | 0, h => cases h; exact ⟨rfl, rfl, rfl, rfl, rfl⟩
  | 1, h => cases h; exact ⟨rfl, rfl, rfl, rfl, rfl⟩

theorem Memory.holds_of_load {m : Memory x} {address : Nat} {b : Header}
    (hdvd : x.bytes ∣ b.address) (h : Header.load m address = .ok b) : m.Holds b := by
  obtain ⟨rfl, hsize, hstate, hnext, hprev⟩ := Header.load_eq_ok h
  have hcell (k v : Nat) (hv : m.loadCell (b.address + k * x.bytes) = .ok v) :
      m.cell (b.address + k * x.bytes) = v := by
    rw [Memory.loadCell_eq m (Nat.dvd_add hdvd (Nat.dvd_mul_left _ _))] at hv
    exact Except.ok.inj hv
  refine ⟨?_, ?_, hcell 2 _ hnext, hcell 3 _ hprev⟩
  · simpa using hcell 0 b.size (by simpa using hsize)
  · simpa using hcell 1 b.state (by simpa using hstate)

namespace Arena

variable {a : Arena x} {b : Header} {hs : List Header} {address prev : Nat}

/-- The checks that a header has passed when it was reached. -/
theorem header_eq_ok (h : a.header address = .ok b) :
    a.heap.Contains address ∧ Header.load a.memory address = .ok b ∧ a.heap.LinkOk b.next ∧
      a.heap.LinkOk b.prev ∧ b.stop x ≤ a.heap.brk := by
  unfold header at h
  by_cases hcontains : a.heap.Contains address
  · rw [if_pos hcontains] at h
    cases hload : Header.load a.memory address with
    | error e => rw [hload] at h; cases h
    | ok c =>
      rw [hload] at h
      by_cases hchecks : a.heap.LinkOk c.next ∧ a.heap.LinkOk c.prev ∧ c.stop x ≤ a.heap.brk
      · have heq : c = b := by simpa [hchecks] using h
        subst heq
        exact ⟨hcontains, rfl, hchecks⟩
      · simp [hchecks] at h
  · rw [if_neg hcontains] at h
    cases h

theorem address_of_header (h : a.header address = .ok b) : b.address = address :=
  (Header.load_eq_ok (header_eq_ok h).2.1).1

/-- A search for a pointer that succeeds has read a header, and ends there or goes on. -/
theorem header_or_allocatedFrom {pointer fuel : Nat}
    (h : a.allocatedFrom pointer fuel address = .ok b) :
    (b.payload x = pointer ∧ a.header address = .ok b) ∨
      ∃ n < fuel, ∃ next, a.allocatedFrom pointer n next = .ok b := by
  unfold allocatedFrom at h
  by_cases hgo : address ≠ null ∧ address + headerSize x ≤ pointer
  · rw [if_pos hgo] at h
    cases hheader : a.header address with
    | error e => rw [hheader] at h; cases h
    | ok c =>
      rw [hheader] at h
      by_cases hpayload : c.payload x = pointer
      · simp only [hpayload, if_true] at h
        by_cases hfree : c.free = true
        · rw [if_pos hfree] at h
          cases h
        · rw [if_neg hfree] at h
          cases h
          exact .inl ⟨hpayload, rfl⟩
      · simp only [hpayload, if_false] at h
        cases fuel with
        | zero => cases h
        | succ n => exact .inr ⟨n, Nat.lt_succ_self n, c.next, h⟩
  · rw [if_neg hgo] at h
    cases h

/-- The search for a pointer ends at a header that was read, of a block with this payload. -/
theorem header_of_allocatedFrom {pointer fuel : Nat}
    (h : a.allocatedFrom pointer fuel address = .ok b) :
    b.payload x = pointer ∧ ∃ c, a.header c = .ok b := by
  induction fuel using Nat.strongRecOn generalizing address with
  | ind fuel ih =>
    rcases header_or_allocatedFrom h with ⟨hpayload, hheader⟩ | ⟨n, hn, next, hnext⟩
    · exact ⟨hpayload, address, hheader⟩
    · exact ih n hn hnext

theorem header_of_allocated {pointer : Nat} (h : a.allocated pointer = .ok b) :
    b.payload x = pointer ∧ ∃ c, a.header c = .ok b := by
  unfold allocated at h
  split at h
  · exact header_of_allocatedFrom h
  · cases h

/-- A search for a free block that finds one has read a header, and ends there or goes on. -/
theorem header_or_firstFitFrom {need fuel : Nat}
    (h : a.firstFitFrom need fuel address = .ok (some b)) :
    (need ≤ b.size ∧ a.header address = .ok b) ∨
      ∃ n < fuel, ∃ next, a.firstFitFrom need n next = .ok (some b) := by
  unfold firstFitFrom at h
  by_cases hnull : address = null
  · rw [if_pos hnull] at h
    cases h
  · rw [if_neg hnull] at h
    cases hheader : a.header address with
    | error e => rw [hheader] at h; cases h
    | ok c =>
      rw [hheader] at h
      by_cases hsuits : c.free = true ∧ need ≤ c.size
      · simp only [hsuits, and_self, if_true] at h
        cases h
        exact .inl ⟨hsuits.2, rfl⟩
      · simp only [hsuits, if_false] at h
        cases fuel with
        | zero => cases h
        | succ n => exact .inr ⟨n, Nat.lt_succ_self n, c.next, h⟩

/-- The search for a free block ends at a header that was read, of a large enough block. -/
theorem header_of_firstFitFrom {need fuel : Nat}
    (h : a.firstFitFrom need fuel address = .ok (some b)) :
    need ≤ b.size ∧ ∃ c, a.header c = .ok b := by
  induction fuel using Nat.strongRecOn generalizing address with
  | ind fuel ih =>
    rcases header_or_firstFitFrom h with ⟨hsize, hheader⟩ | ⟨n, hn, next, hnext⟩
    · exact ⟨hsize, address, hheader⟩
    · exact ih n hn hnext

theorem header_of_firstFit? {need : Nat} (h : a.firstFit? need = .ok (some b)) :
    need ≤ b.size ∧ ∃ c, a.header c = .ok b :=
  header_of_firstFitFrom h

/-! ### Headers that were walked over -/

/-- The headers are those that the links to the next one lead through, from an address
on to the end. -/
def Walked (a : Arena x) : Nat → List Header → Prop
  | address, [] => address = null
  | address, b :: r => a.header address = .ok b ∧ a.Walked b.next r

/-- Every one of them was read. -/
theorem Walked.header_eq (h : a.Walked address hs) {b : Header} (hb : b ∈ hs) :
    ∃ c, a.header c = .ok b := by
  induction hs generalizing address with
  | nil => cases hb
  | cons c r ih =>
    rcases List.mem_cons.1 hb with rfl | hin
    · exact ⟨address, h.1⟩
    · exact ih h.2 hin

theorem walked_of_blocksFrom {fuel : Nat} {seen out : List Header}
    (h : a.blocksFrom fuel address seen = .ok out) :
    ∃ hs, out = hs.reverse ++ seen ∧ a.Walked address hs := by
  -- Induction on the steps that are left; what was seen moves over to the front.
  induction fuel using Nat.strongRecOn generalizing address seen with
  | ind fuel ih =>
    unfold blocksFrom at h
    by_cases hnull : address = null
    · rw [if_pos hnull] at h
      cases h
      exact ⟨[], rfl, hnull⟩
    rw [if_neg hnull] at h
    cases hheader : a.header address with
    | error e => rw [hheader] at h; cases h
    | ok b =>
      rw [hheader] at h
      cases fuel with
      | zero => cases h
      | succ n =>
        obtain ⟨hs, hout, hwalked⟩ := ih n (Nat.lt_succ_self n) h
        refine ⟨b :: hs, ?_, hheader, hwalked⟩
        rw [hout, List.reverse_cons, List.append_assoc, List.singleton_append]

theorem walked_of_blocks (h : a.blocks = .ok hs) : a.Walked a.heap.head hs := by
  unfold blocks at h
  cases hwalk : a.blocksFrom a.heap.maxBlocks a.heap.head [] with
  | error e => rw [hwalk] at h; cases h
  | ok out =>
    rw [hwalk] at h
    obtain ⟨seen, hout, hwalked⟩ := walked_of_blocksFrom hwalk
    have heq : out.reverse = hs := Except.ok.inj h
    rw [← heq, hout, List.append_nil, List.reverse_reverse]
    exact hwalked

/-- Headers that were walked over, and whose links to the previous one agree, are stored
as a linked list of their blocks. -/
theorem Walked.linked (h : a.Walked address hs) (hdvd : ∀ b ∈ hs, x.bytes ∣ b.address)
    (hprev : ∀ b ∈ hs.head?, b.prev = prev)
    (hlinked : hs.IsChain fun b c => b.next = c.address ∧ c.prev = b.address) :
    front (hs.map Header.block) null = address ∧ hs = headers prev (hs.map Header.block) ∧
      Linked a.memory prev (hs.map Header.block) null := by
  induction hs generalizing address prev with
  | nil => exact ⟨h.symm, rfl, trivial⟩
  | cons b r ih =>
    obtain ⟨hheader, hr⟩ := h
    obtain ⟨hnext, hchain⟩ := List.isChain_cons.1 hlinked
    obtain ⟨hfront, heq, hrest⟩ := ih hr (fun c hc => hdvd c (List.mem_cons_of_mem b hc))
      (fun c hc => (hnext c hc).2) hchain
    have hholds := Memory.holds_of_load (hdvd b List.mem_cons_self) (header_eq_ok hheader).2.1
    have hb : b.block.header (front (r.map Header.block) null) prev = b := by
      rw [hfront, ← hprev b rfl]
      rfl
    refine ⟨address_of_header hheader, ?_, ?_⟩
    · rw [List.map_cons, headers, hb]
      exact congrArg (List.cons b) heq
    · exact ⟨hb.symm ▸ hholds, hrest⟩

end Arena

/-- Blocks that lie in a range in order are placed there. -/
theorem placed_of_pairwise {low high : Nat} {bs : List Block} (hle : low ≤ high)
    (hinside : ∀ b ∈ bs, low ≤ b.address ∧ b.stop x ≤ high) (hwhole : ∀ b ∈ bs, b.Whole x)
    (hordered : bs.Pairwise fun b c => b.stop x ≤ c.address) : Placed x low bs high := by
  induction bs generalizing low with
  | nil => exact hle
  | cons b r ih =>
    obtain ⟨hb, hr⟩ := List.pairwise_cons.1 hordered
    obtain ⟨hlow, hhigh⟩ := hinside b List.mem_cons_self
    refine ⟨hlow, hwhole b List.mem_cons_self, ih hhigh (fun c hc => ⟨hb c hc, ?_⟩) ?_ hr⟩
    · exact (hinside c (List.mem_cons_of_mem b hc)).2
    · exact fun c hc => hwhole c (List.mem_cons_of_mem b hc)

namespace Arena

variable {a : Arena x} {hs : List Header}

/-- What the allocator can tell about its blocks determines the arena: a walk that finds
a heap in order has found all its blocks, and they are stored as they were read. -/
theorem consistent_of_wellFormed (hw : Window x a.heap.base a.heap.limit)
    (hblocks : a.blocks = .ok hs) (h : a.heap.WellFormed hs) :
    a.Consistent (hs.map Header.block) ∧ hs = headers null (hs.map Header.block) := by
  obtain ⟨hfront, heq, hlinked⟩ :=
    (walked_of_blocks hblocks).linked h.address_dvd h.head_prev h.linked
  have hordered : (hs.map Header.block).Pairwise fun b c => b.stop x ≤ c.address :=
    List.pairwise_map.2 h.ordered
  have hplaced : Placed x a.heap.base (hs.map Header.block) a.heap.brk := by
    refine placed_of_pairwise h.base_le ?_ ?_ hordered
    · intro c hc
      obtain ⟨b, hb, rfl⟩ := List.mem_map.1 hc
      exact h.inside b hb
    · intro c hc
      obtain ⟨b, hb, rfl⟩ := List.mem_map.1 hc
      exact ⟨h.address_dvd b hb, h.size_dvd b hb, h.size_pos b hb⟩
  have htail : a.heap.tail = back null (hs.map Header.block) := by
    rw [h.tail_eq]
    conv_lhs => rw [heq]
    exact getLast?_headers null _
  have hapart : Apart x (hs.map Header.block) := by
    refine (List.isChain_map _).2 (h.apart.imp fun b c hnot hm => hnot ?_)
    exact ⟨hm.1, hm.2.1, hm.2.2.symm⟩
  have hactive : a.heap.active = (live (hs.map Header.block)).length := by
    rw [h.active_eq]
    conv_lhs => rw [heq]
    exact length_filter_headers null _
  exact ⟨⟨⟨⟨hw, h.brk_le, hplaced⟩, hfront.symm, htail, hlinked⟩, hapart, hactive⟩, heq⟩

/-- The heap spans a window, and the walk over its blocks finds a heap in order. -/
structure Orderly (a : Arena x) (hs : List Header) : Prop where
  window : Window x a.heap.base a.heap.limit
  blocks_eq : a.blocks = .ok hs
  wellFormed : a.heap.WellFormed hs

theorem Orderly.exists_consistent (h : a.Orderly hs) :
    ∃ bs, a.Consistent bs ∧ hs = headers null bs :=
  ⟨_, consistent_of_wellFormed h.window h.blocks_eq h.wellFormed⟩

theorem Consistent.orderly {bs : List Block} (h : a.Consistent bs) : a.Orderly (headers null bs) :=
  ⟨h.window, h.blocks_eq, h.wellFormed⟩

end Arena

/-- Whatever a program does that keeps to what it was given, the walk over its blocks finds
them in order. -/
theorem Session.Reachable.orderly {base limit : Nat} {s : Session x} (hw : Window x base limit)
    (h : Reachable base limit s) {hs : List Header} (hblocks : s.arena.blocks = .ok hs) :
    s.arena.Orderly hs := by
  obtain ⟨bs, hsound⟩ := h.sound hw
  have horderly := hsound.consistent.orderly
  rw [hsound.consistent.blocks_eq] at hblocks
  exact Except.ok.inj hblocks ▸ horderly

end Hart
