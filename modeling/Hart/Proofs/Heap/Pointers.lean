/-
What a program learns from the answers of the allocator.

`Arena.pointers a` are the pointers of the live allocations, as a walk over the blocks finds
them.  Null tells a program that nothing has changed, and why; any other answer tells it
which pointer is new.

* `Consistent.request` — after any request the blocks are in order again;
* `Consistent.obtains` — allocations (`Obtained`);
* `Consistent.resettles` — allocations that are resized (`Resettled`);
* `Consistent.releases` — allocations that are released.

Design notes: null is never the pointer of an allocation, because a heap does not start at
address zero.  So nothing of this needs to know where the heap lies.
-/
import Hart.Proofs.Heap.Reallocation

namespace Hart

open AllocM

variable {x : Xlen}

namespace Arena

/-- The pointers of the live allocations. -/
def pointers (a : Arena x) : Set Nat :=
  {p | ∃ hs, a.blocks = .ok hs ∧ ∃ b ∈ hs, b.free = false ∧ b.payload x = p}

/-- There is space for a new allocation of `size` bytes. -/
def HasRoom (a : Arena x) (size : Nat) : Prop := ∃ q a', malloc size a = .ok q a' ∧ q ≠ null

/-- What the answer `q` to a request for `size` bytes tells: null, that there is no new
allocation and nothing has changed; otherwise, which is the one new allocation. -/
structure Obtained (size : Nat) (a : Arena x) (q : Nat) (a' : Arena x) : Prop where
  null_iff : q = null ↔ a'.pointers = a.pointers
  unchanged : q = null → a' = a
  fresh : q ≠ null → q ∉ a.pointers ∧ a'.pointers = insert q a.pointers
  size_le : q ≠ null →
    ∃ hs, a'.blocks = .ok hs ∧ ∃ b ∈ hs, b.free = false ∧ b.payload x = q ∧ size ≤ b.size

/-- What the answer `q` to a request to resize the allocation `b` to `size` bytes tells:
null, that this is not possible and nothing has changed; otherwise, where the allocation
lives on. -/
structure Resettled (size : Nat) (a : Arena x) (hs : List Header) (b : Header) (q : Nat)
    (a' : Arena x) : Prop where
  null_iff : q = null ↔ size = 0 ∨ ¬ a.FitsInPlace hs b (wholeCells x size) ∧ ¬ a.HasRoom size
  unchanged : q = null → a' = a
  carried : q ≠ null → ∃ hs', Carried size a hs b q a' hs'

variable {a a' : Arena x} {bs bs' : List Block} {need p q size : Nat} {zeroed : Bool}

theorem Consistent.mem_pointers (h : a.Consistent bs) :
    p ∈ a.pointers ↔ ∃ b ∈ live bs, b.payload x = p := by
  rw [exists_live_payload_iff]
  constructor
  · rintro ⟨hs, hblocks, b, hb, hlive⟩
    rw [h.blocks_eq] at hblocks
    cases hblocks
    exact ⟨b, hb, hlive⟩
  · rintro ⟨b, hb, hlive⟩
    exact ⟨headers null bs, h.blocks_eq, b, hb, hlive⟩

/-- A pointer is an address, and not null. -/
theorem Consistent.pointer_bounds (h : a.Consistent bs) (hp : p ∈ a.pointers) :
    p ≠ null ∧ p < x.space := by
  obtain ⟨b, hb, rfl⟩ := h.mem_pointers.1 hp
  have hmem := (mem_live.1 hb).1
  refine ⟨b.payload_ne_null x, ?_⟩
  exact (Block.payload_lt_stop (h.placed.of_mem hmem).2.1).trans_le (h.toLaid.stop_le_space hmem)

/-! ### Requests, whichever they are -/

/-- A program that holds every pointer and was granted nothing is at work on the arena. -/
theorem Consistent.sound (h : a.Consistent bs) :
    Session.Sound a.heap.base a.heap.limit ⟨a, ∅, a.pointers⟩ bs where
  consistent := h
  base_eq := rfl
  limit_eq := rfl
  granted_subset := Set.empty_subset _
  granted_disjoint := Set.empty_disjoint _
  held_iff _ := h.mem_pointers

/-- Whether a request is answered or refused, the blocks are in order after it. -/
theorem Consistent.request (h : a.Consistent bs) (r : Request) :
    ∃ bs', (Reply.arena (r.run a)).Consistent bs' := by
  obtain ⟨bs', hsound⟩ := (h.sound.served r).sound
  exact ⟨bs', Session.arena_perform ⟨a, ∅, a.pointers⟩ r ▸ hsound.consistent⟩

/-- The pointers after a request that was answered. -/
theorem Consistent.pointers_eq (h : a.Consistent bs) {r : Request} (hrun : r.run a = .ok q a') :
    a'.pointers = (Session.after ⟨a, ∅, a.pointers⟩ r (.ok q a')).held := by
  obtain ⟨bs', hsound⟩ := (h.sound.served r).sound
  dsimp only at hsound
  rw [hrun] at hsound
  have harena : (Session.after ⟨a, ∅, a.pointers⟩ r (.ok q a')).arena = a' := by
    cases r <;> rfl
  have hconsistent : a'.Consistent bs' := harena ▸ hsound.consistent
  ext p
  rw [hsound.held_iff, hconsistent.mem_pointers]

/-- An answer that is null or a pointer fits into a register. -/
theorem Consistent.wrap_eq_self (h : a.Consistent bs) {r : Request} (hrun : r.run a = .ok q a')
    (hq : q ≠ null → q ∈ a'.pointers) : x.wrap q = q := by
  by_cases hnull : q = null
  · rw [hnull]
    exact Xlen.wrap_of_lt x.space_pos
  · obtain ⟨bs', hconsistent⟩ := h.request r
    rw [hrun] at hconsistent
    have hafter : a'.Consistent bs' := hconsistent
    exact Xlen.wrap_of_lt (hafter.pointer_bounds (hq hnull)).2

/-! ### Allocating -/

theorem Answered.obtained (h : a.Consistent bs) (hanswered : Answered size zeroed a bs q a')
    (hpointers : a'.pointers = a.pointers ∪ ({q} \ {null})) : Obtained size a q a' := by
  cases hanswered with
  | refused hnone =>
    exact ⟨iff_of_true rfl rfl, fun _ => rfl, fun hne => absurd rfl hne,
      fun hne => absurd rfl hne⟩
  | @granted need _ bs' b hsize hround hallocated hconsistent hevolves hzero =>
    obtain ⟨hpos, -, hle, -⟩ := Heap.roundSize?_spec hsize hround
    have hne : b.payload x ≠ null := b.payload_ne_null x
    have hfresh : b.payload x ∉ a.pointers := by
      intro hin
      obtain ⟨c, hc, hpayload⟩ := h.mem_pointers.1 hin
      exact hallocated.payload_ne_of_mem_live h.placed hpos hc hpayload.symm
    have hinsert : a'.pointers = insert (b.payload x) a.pointers := by
      have hnot : null ∉ ({b.payload x} : Set Nat) := hne.symm
      rw [hpointers, Set.sdiff_singleton_eq_self hnot, Set.union_singleton]
    refine ⟨iff_of_false hne fun heq => ?_, fun hnull => absurd hnull hne,
      fun _ => ⟨hfresh, hinsert⟩, fun _ => ⟨headers null bs', hconsistent.blocks_eq, ?_⟩⟩
    · rw [heq] at hinsert
      exact hfresh (hinsert ▸ Set.mem_insert _ _)
    · have hlive : b ∈ live bs' := mem_live.2 ⟨hallocated.mem, hallocated.free_eq⟩
      exact exists_live_header hlive (hle.trans hallocated.need_le)

/-- An allocation is always answered, whether it is to be filled with zeros or not. -/
theorem Consistent.obtains (h : a.Consistent bs) {r : Request}
    (hr : r = .malloc size ∨ r = .calloc size) :
    ∃ q a', r.run a = .ok q a' ∧ Obtained size a q a' := by
  obtain rfl | rfl := hr
  · obtain ⟨q, a', hrun, hanswered⟩ := h.yields_malloc size
    exact ⟨q, a', hrun, hanswered.obtained h (h.pointers_eq (r := .malloc size) hrun)⟩
  · obtain ⟨q, a', hrun, hanswered⟩ := h.yields_allocate size true
    exact ⟨q, a', hrun, hanswered.obtained h (h.pointers_eq (r := .calloc size) hrun)⟩

theorem Consistent.hasRoom_iff (h : a.Consistent bs) :
    a.HasRoom size ↔ ∃ need, size ≠ 0 ∧ a.heap.roundSize? size = some need ∧
      ∃ bs' brk' b, Allocated x need a.heap.limit bs a.heap.brk bs' brk' b := by
  obtain ⟨q, a', hrun, hanswered⟩ := h.yields_malloc size
  have hroom : a.HasRoom size ↔ q ≠ null := by
    constructor
    · rintro ⟨q', a'', hrun', hne⟩
      rw [hrun] at hrun'
      cases hrun'
      exact hne
    · exact fun hne => ⟨q, a', hrun, hne⟩
  rw [hroom]
  cases hanswered with
  | @granted need _ bs' b hsize hround hallocated =>
    exact iff_of_true (b.payload_ne_null x) ⟨need, hsize, hround, bs', _, b, hallocated⟩
  | refused hnone =>
    refine iff_of_false (fun hne => hne rfl) ?_
    rintro ⟨need, hsize, hround, bs', brk', b, hallocated⟩
    exact hnone need hsize hround bs' brk' b hallocated

/-! ### Resizing -/

/-- What can be resized in place fits there. -/
theorem Represents.fitsInPlace (h : a.Represents bs) {d : Header} {brk' : Nat} {b' : Block}
    (hresized : Resized x need a.heap.limit bs a.heap.brk d.block bs' brk' b') :
    a.FitsInPlace (headers null bs) d need := by
  generalize hblock : d.block = b at hresized
  generalize hbrk : a.heap.brk = brk at hresized
  cases hresized with
  | shrink hle =>
    subst hblock
    exact .inl hle
  | @absorb l r b n _ hlt habsorbs =>
    subst hblock
    have hn : n ∈ l ++ d.block :: n :: r := by simp
    obtain ⟨e, he, rfl⟩ := exists_header_of_mem null hn
    obtain ⟨hfree, hstop, hneed⟩ := habsorbs
    refine .inr (.inl ⟨e, he, hfree, hstop, ?_⟩)
    rw [Nat.add_assoc]
    exact hneed
  | @grow l b _ hlt hstop hlimit =>
    subst hblock
    refine .inr (.inr ⟨?_, hstop.trans hbrk.symm, hlimit⟩)
    exact h.tail_eq_last

/-- A live allocation that is to be resized is always answered. -/
theorem Consistent.resettles (h : a.Consistent bs) {d : Header} (hd : d ∈ headers null bs)
    (hlive : d.free = false) (size : Nat) :
    ∃ q a', realloc (d.payload x) size a = .ok q a' ∧
      Resettled size a (headers null bs) d q a' := by
  have hmem : d.block ∈ live bs := mem_live.2 ⟨block_mem_of_mem_headers hd, hlive⟩
  obtain ⟨l, r, hsplit⟩ := List.append_of_mem (mem_live.1 hmem).1
  obtain ⟨q, a', hrun, hway⟩ := (hsplit ▸ h).yields_realloc hlive size
  rw [← hsplit] at hway
  refine ⟨q, a', hrun, ?_⟩
  cases hway with
  | @inPlace need _ bs' b' hsize hround hresized hconsistent hevolves hzero =>
    have hne : d.payload x ≠ null := d.block.payload_ne_null x
    have hfits := h.toRepresents.fitsInPlace hresized
    rw [Heap.eq_wholeCells hround] at hfits
    refine ⟨iff_of_false hne ?_, fun hnull => absurd hnull hne, fun _ => ⟨headers null bs', ?_⟩⟩
    · rintro (hzero | ⟨hnot, -⟩)
      · exact hsize hzero
      · exact hnot hfits
    · exact h.carried_inPlace hmem hsize hround hresized hconsistent hevolves
  | @moved need _ l r b' hsize hround hnot hallocated hconsistent hevolves hcopied hzero =>
    have hne : b'.payload x ≠ null := b'.payload_ne_null x
    have hroom : a.HasRoom size := h.hasRoom_iff.2 ⟨need, hsize, hround, _, _, b', hallocated⟩
    refine ⟨iff_of_false hne ?_, fun hnull => absurd hnull hne,
      fun _ => ⟨headers null (released x l d.block r), ?_⟩⟩
    · rintro (hzero | ⟨-, hnot⟩)
      · exact hsize hzero
      · exact hnot hroom
    · exact h.carried_moved hmem hsize hround hallocated hconsistent hevolves hcopied
  | refused hnone =>
    refine ⟨iff_of_true rfl (or_iff_not_imp_left.2 fun hsize => ⟨fun hfits => ?_, fun hroom => ?_⟩),
      fun _ => rfl, fun hne => absurd rfl hne⟩
    · obtain ⟨bs', brk', c, hresized⟩ := h.exists_resized hmem hfits
      have hround := h.roundSize?_eq_some (mem_live.1 hmem).1 hfits
      exact (hnone _ hsize hround).1 bs' brk' c hresized
    · obtain ⟨need, -, hround, bs', brk', c, hallocated⟩ := h.hasRoom_iff.1 hroom
      exact (hnone need hsize hround).2 bs' brk' c hallocated

/-! ### Releasing -/

/-- The pointer of a live allocation is released, and no other. -/
theorem Consistent.releases (h : a.Consistent bs) (hp : p ∈ a.pointers) :
    ∃ a', (Request.free p).run a = .ok null a' ∧ a'.pointers = a.pointers \ {p} := by
  obtain ⟨b, hb, rfl⟩ := h.mem_pointers.1 hp
  obtain ⟨l, r, rfl⟩ := List.append_of_mem (mem_live.1 hb).1
  obtain ⟨_, a', hfree, -⟩ := h.yields_free (mem_live.1 hb).2
  have hrun : (Request.free (b.payload x)).run a = .ok null a' := by
    rw [Request.run_free, hfree]
  exact ⟨a', hrun, h.pointers_eq hrun⟩

end Arena

end Hart
