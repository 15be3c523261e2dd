/-
The pointers that are accepted.

A program may hand any address to the allocator, and the allocator tells by a walk over
headers in memory whether it is the pointer of a live allocation.  On a heap in order the walk
is right, whatever else memory holds:

* `Orderly.not_mem_pointers` — of the addresses of a block, only where the payload of a live
  one starts is a pointer: not its header, not its inside, and nothing in a free block, where
  headers of blocks that were joined may still be stored;
* `Orderly.accepts` — pointers are released and resized, every other address is refused and
  nothing changes, and the pointers are those that the program was given and has not
  released since.

Design notes: null is no pointer, but asks for nothing to be released and for an allocation.
-/
import Hart.Proofs.Heap.FirstFit

namespace Hart

open AllocM

variable {x : Xlen}

namespace Arena

variable {a : Arena x} {bs : List Block} {hs : List Header} {b : Header} {p : Nat}

theorem Orderly.mem_pointers (h : a.Orderly hs) :
    p ∈ a.pointers ↔ ∃ b ∈ hs, b.free = false ∧ b.payload x = p := by
  constructor
  · rintro ⟨hs', hblocks, hp⟩
    rw [h.blocks_eq] at hblocks
    exact Except.ok.inj hblocks ▸ hp
  · intro hp
    exact ⟨hs, h.blocks_eq, hp⟩

/-- An address in a block is a pointer only if it is where the payload of a live one starts. -/
theorem Orderly.not_mem_pointers (h : a.Orderly hs) (hb : b ∈ hs)
    (hp : p ∈ Set.Ico b.address (b.stop x)) (hnot : b.free = true ∨ p ≠ b.payload x) :
    p ∉ a.pointers := by
  intro hin
  obtain ⟨c, hc, hlive, rfl⟩ := h.mem_pointers.1 hin
  obtain ⟨bs, hbs, rfl⟩ := h.exists_consistent
  by_cases hne : b.block = c.block
  · rcases hnot with hfree | hother
    · have hsame : b.free = c.free := congrArg Block.free hne
      rw [hfree, hlive] at hsame
      exact Bool.noConfusion hsame
    · exact hother (congrArg (Block.payload x) hne).symm
  · -- Two blocks do not overlap, and a payload starts inside its own.
    have hmem := block_mem_of_mem_headers hb
    have hmem' := block_mem_of_mem_headers hc
    have hpayload := c.block.address_lt_payload x
    have hstop := Block.payload_lt_stop (hbs.placed.of_mem hmem').2.1
    have hlow : b.block.address ≤ c.block.payload x := hp.1
    have hhigh : c.block.payload x < b.block.stop x := hp.2
    rcases hbs.placed.disjoint hmem hmem' hne with hle | hle <;> omega

theorem Consistent.refuses (h : a.Consistent bs) (hp : p ≠ null) (hnot : p ∉ a.pointers) :
    free p a = .error (.invalidPointer p) a ∧
      ∀ size, realloc p size a = .error (.invalidPointer p) a := by
  have hnone : ∀ b ∈ live bs, b.payload x ≠ p := by
    intro b hb hpayload
    exact hnot (h.mem_pointers.2 ⟨b, hb, hpayload⟩)
  exact ⟨h.free_eq_error hp hnone, fun size => h.realloc_eq_error hp hnone size⟩

theorem Consistent.resizes (h : a.Consistent bs) (hp : p ∈ a.pointers) (size : Nat) :
    ∃ q a', realloc p size a = .ok q a' := by
  obtain ⟨b, hb, rfl⟩ := h.mem_pointers.1 hp
  obtain ⟨l, r, rfl⟩ := List.append_of_mem (mem_live.1 hb).1
  obtain ⟨q, a', hrun, -⟩ := h.yields_realloc (mem_live.1 hb).2 size
  exact ⟨q, a', hrun⟩

/-- A released pointer is no pointer any more, and the heap is in order as before. -/
theorem Consistent.frees (h : a.Consistent bs) (hp : p ∈ a.pointers) :
    ∃ a' hs', free p a = .ok () a' ∧ a'.Orderly hs' ∧ a'.pointers = a.pointers \ {p} := by
  obtain ⟨a', hrun, hpointers⟩ := h.releases hp
  obtain ⟨bs', hbs'⟩ := h.request (.free p)
  rw [hrun] at hbs'
  rw [Request.run_free] at hrun
  cases hfree : free p a with
  | ok v a'' =>
    rw [hfree] at hrun
    cases hrun
    exact ⟨a', headers null bs', rfl, Consistent.orderly hbs', hpointers⟩
  | error e a'' =>
    rw [hfree] at hrun
    cases hrun

/-- On a heap in order an address other than null is accepted exactly if it is the pointer of
a live allocation, and a refused one changes nothing.  These are the pointers that a program
holds which has come to this heap. -/
theorem Orderly.accepts (horderly : a.Orderly hs) (hp : p ≠ null) :
    (p ∈ a.pointers ↔ ∃ b ∈ hs, b.free = false ∧ b.payload x = p) ∧
      ((∃ a', free p a = .ok () a') ↔ p ∈ a.pointers) ∧
      (∀ size, (∃ q a', realloc p size a = .ok q a') ↔ p ∈ a.pointers) ∧
      (p ∉ a.pointers → free p a = .error (.invalidPointer p) a ∧
        ∀ size, realloc p size a = .error (.invalidPointer p) a) ∧
      (∀ a', free p a = .ok () a' → ∃ hs', a'.Orderly hs' ∧ a'.pointers = a.pointers \ {p}) ∧
      ∀ s : Session x, Session.Reachable a.heap.base a.heap.limit s → s.arena = a →
        (p ∈ s.held ↔ p ∈ a.pointers) := by
  obtain ⟨bs, h, -⟩ := horderly.exists_consistent
  -- What was answered was not refused, so the address was a pointer.
  have hfreed (a' : Arena x) (hrun : free p a = .ok () a') : p ∈ a.pointers := by
    by_contra hnot
    rw [(h.refuses hp hnot).1] at hrun
    cases hrun
  have hresized (size q : Nat) (a' : Arena x) (hrun : realloc p size a = .ok q a') :
      p ∈ a.pointers := by
    by_contra hnot
    rw [(h.refuses hp hnot).2 size] at hrun
    cases hrun
  refine ⟨horderly.mem_pointers, ⟨?_, ?_⟩, fun size => ⟨?_, fun hin => h.resizes hin size⟩,
    fun hnot => h.refuses hp hnot, ?_, ?_⟩
  · rintro ⟨a', hrun⟩
    exact hfreed a' hrun
  · intro hin
    obtain ⟨a', -, hrun, -⟩ := h.frees hin
    exact ⟨a', hrun⟩
  · rintro ⟨q, a', hrun⟩
    exact hresized size q a' hrun
  · intro a' hrun
    obtain ⟨a'', hs', hrun', hafter⟩ := h.frees (hfreed a' hrun)
    rw [hrun] at hrun'
    cases hrun'
    exact ⟨hs', hafter⟩
  · intro s hreachable harena
    obtain ⟨bs', hsound⟩ := hreachable.sound h.window
    rw [hsound.held_iff, ← harena, hsound.consistent.mem_pointers]

/-- What was released is refused, and what is live is accepted. -/
theorem accepts_hollow :
    free 0x1010 hollow = .error (.invalidPointer 0x1010) hollow ∧
      ∃ a', free 0x1038 hollow = .ok () a' := by
  have hreleased := orderly_hollow.accepts (p := 0x1010) (by decide)
  have hlive := orderly_hollow.accepts (p := 0x1038) (by decide)
  rw [hreleased.1, hlive.1] at *
  exact ⟨(hreleased.2.2.2.1 (by decide)).1, hlive.2.1.2 (by decide)⟩

end Arena

end Hart
