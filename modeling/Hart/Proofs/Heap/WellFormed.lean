/-
The block list of a heap in use.

`Heap.WellFormed h hs` says what a heap `h` with the headers `hs` looks like: the
blocks lie in order below the mark, on whole cells and not empty; the links of
neighbours lead to each other, and the heap knows both ends; no two free blocks
are adjacent; and the live allocations are counted.

* `Session.Reachable.blocks_wellFormed` — whatever requests and stores a run is made of,
  the walk over the blocks succeeds, finds such a list, and the next request is
  answered or refuses its pointer.
-/
import Hart.Proofs.Heap.Session

namespace Hart

variable {x : Xlen}

/-- The headers, in the order of the walk, are those of a heap in order. -/
structure Heap.WellFormed (h : Heap x) (hs : List Header) : Prop where
  base_le : h.base ≤ h.brk
  brk_le : h.brk ≤ h.limit
  address_dvd : ∀ b ∈ hs, x.bytes ∣ b.address
  size_dvd : ∀ b ∈ hs, x.bytes ∣ b.size
  size_pos : ∀ b ∈ hs, 0 < b.size
  inside : ∀ b ∈ hs, h.base ≤ b.address ∧ b.stop x ≤ h.brk
  increasing : hs.Pairwise fun b c => b.address < c.address
  ordered : hs.Pairwise fun b c => b.stop x ≤ c.address
  linked : hs.IsChain fun b c => b.next = c.address ∧ c.prev = b.address
  head_eq : h.head = (hs.head?.map Header.address).getD null
  head_prev : ∀ b ∈ hs.head?, b.prev = null
  tail_eq : h.tail = (hs.getLast?.map Header.address).getD null
  tail_next : ∀ b ∈ hs.getLast?, b.next = null
  apart : hs.IsChain fun b c => ¬ (b.free = true ∧ c.free = true ∧ b.stop x = c.address)
  active_eq : h.active = (hs.filter fun b => !b.free).length

/-! ### The headers of a list of blocks -/

variable {bs : List Block} {prev : Nat}

theorem head?_headers (prev : Nat) (bs : List Block) :
    ((headers prev bs).head?.map Header.address).getD null = front bs null := by
  cases bs with
  | nil => rfl
  | cons b r => rfl

theorem prev_of_mem_head? {b : Header} (hb : b ∈ (headers prev bs).head?) : b.prev = prev := by
  cases bs with
  | nil => simp [headers] at hb
  | cons c r =>
    have heq : c.header (front r null) prev = b := by simpa [headers] using hb
    rw [← heq]
    rfl

theorem getLast?_headers (prev : Nat) (bs : List Block) :
    ((headers prev bs).getLast?.map Header.address).getD prev = back prev bs := by
  induction bs generalizing prev with
  | nil => rfl
  | cons b r ih =>
    rw [headers, List.getLast?_cons, back_cons, ← ih b.address]
    cases (headers b.address r).getLast? <;> rfl

theorem next_of_mem_getLast? {b : Header} (hb : b ∈ (headers prev bs).getLast?) :
    b.next = null := by
  induction bs generalizing prev with
  | nil => simp [headers] at hb
  | cons c r ih =>
    cases r with
    | nil =>
      have heq : c.header null prev = b := by simpa [headers] using hb
      rw [← heq]
      rfl
    | cons d r =>
      have hrest : b ∈ (headers c.address (d :: r)).getLast? := by simpa [headers] using hb
      exact ih hrest

/-- The links of neighbours lead to each other. -/
theorem linked_headers (prev : Nat) (bs : List Block) :
    (headers prev bs).IsChain fun b c => b.next = c.address ∧ c.prev = b.address := by
  induction bs generalizing prev with
  | nil => exact List.isChain_nil
  | cons b r ih =>
    cases r with
    | nil => exact List.isChain_singleton _
    | cons c r => exact List.isChain_cons_cons.2 ⟨⟨rfl, rfl⟩, ih b.address⟩

/-- What relates any two blocks in order relates their headers. -/
theorem pairwise_headers {P : Block → Block → Prop} (h : bs.Pairwise P) :
    (headers prev bs).Pairwise fun b c => P b.block c.block := by
  rw [← map_block_headers prev bs] at h
  exact List.pairwise_map.1 h

theorem isChain_headers {P : Block → Block → Prop} (h : bs.IsChain P) :
    (headers prev bs).IsChain fun b c => P b.block c.block := by
  rw [← map_block_headers prev bs] at h
  exact (List.isChain_map _).1 h

theorem length_filter_headers (prev : Nat) (bs : List Block) :
    ((headers prev bs).filter fun b => !b.free).length = (live bs).length := by
  conv_rhs => rw [← map_block_headers prev bs, live, List.filter_map, List.length_map]
  rfl

/-- The live allocations, told by blocks or by headers. -/
theorem exists_live_payload_iff {p : Nat} :
    (∃ b ∈ live bs, b.payload x = p) ↔ ∃ b ∈ headers prev bs, b.free = false ∧ b.payload x = p := by
  constructor
  · rintro ⟨b, hb, rfl⟩
    obtain ⟨hmem, hlive⟩ := mem_live.1 hb
    rw [← map_block_headers prev bs] at hmem
    obtain ⟨d, hd, rfl⟩ := List.mem_map.1 hmem
    exact ⟨d, hd, hlive, rfl⟩
  · rintro ⟨b, hb, hlive, rfl⟩
    exact ⟨b.block, mem_live.2 ⟨block_mem_of_mem_headers hb, hlive⟩, rfl⟩

namespace Arena

variable {a : Arena x}

theorem Consistent.wellFormed (h : a.Consistent bs) : a.heap.WellFormed (headers null bs) where
  base_le := h.placed.le
  brk_le := h.brk_le
  address_dvd _ hb := (h.placed.of_mem (block_mem_of_mem_headers hb)).2.1.address_dvd
  size_dvd _ hb := (h.placed.of_mem (block_mem_of_mem_headers hb)).2.1.size_dvd
  size_pos _ hb := (h.placed.of_mem (block_mem_of_mem_headers hb)).2.1.size_pos
  inside _ hb :=
    ⟨(h.placed.of_mem (block_mem_of_mem_headers hb)).1,
      (h.placed.of_mem (block_mem_of_mem_headers hb)).2.2⟩
  increasing := pairwise_headers (P := fun b c => b.address < c.address) <|
    h.placed.sorted.imp fun {b c} hle => Nat.lt_of_lt_of_le (b.address_lt_stop x) hle
  ordered := pairwise_headers (P := fun b c => b.stop x ≤ c.address) h.placed.sorted
  linked := linked_headers null bs
  head_eq := h.head_eq.trans (head?_headers null bs).symm
  head_prev _ hb := prev_of_mem_head? hb
  tail_eq := h.tail_eq.trans (getLast?_headers null bs).symm
  tail_next _ hb := next_of_mem_getLast? hb
  apart := by
    refine (isChain_headers h.apart).imp fun b c hnot hbad => hnot ?_
    exact ⟨hbad.1, hbad.2.1, hbad.2.2.symm⟩
  active_eq := h.active_eq.trans (length_filter_headers null bs).symm

end Arena

namespace Session

variable {base limit : Nat} {s : Session x}

/-- In every run over a window the block list is in order, and no request fails
but for a pointer that is not one of a live allocation. -/
theorem Reachable.blocks_wellFormed (hw : Window x base limit) (h : Reachable base limit s) :
    s.arena.heap.base = base ∧ s.arena.heap.limit = limit ∧
      (∃ hs, s.arena.blocks = .ok hs ∧ s.arena.heap.WellFormed hs) ∧
      ∀ r : Request, (∃ q a, r.run s.arena = .ok q a) ∨
        ∃ p, r.run s.arena = .error (.invalidPointer p) s.arena := by
  obtain ⟨bs, hsound⟩ := h.sound hw
  refine ⟨hsound.base_eq, hsound.limit_eq, ⟨headers null bs, ?_, ?_⟩, fun r => ?_⟩
  · exact hsound.consistent.blocks_eq
  · exact hsound.consistent.wellFormed
  · exact (hsound.served r).answered

/-- A run of two requests, the second of them refused. -/
theorem wellFormed_malloc_free :
    ∃ hs, (((fresh 4096 8192 false (Memory.empty .rv32 true)).perform (.malloc 10)).perform
        (.free 4100)).arena.blocks = .ok hs ∧
      (((fresh 4096 8192 false (Memory.empty .rv32 true)).perform (.malloc 10)).perform
        (.free 4100)).arena.heap.WellFormed hs := by
  have hw : Window .rv32 4096 8192 := ⟨by decide, by decide, by decide, by decide⟩
  have hfresh := reachable_fresh 4096 8192 false (Memory.empty .rv32 true)
  exact (Reachable.blocks_wellFormed hw ((hfresh.perform (.malloc 10)).perform (.free 4100))).2.2.1

end Session

end Hart
