/-
Releasing what was just allocated.

An allocation cuts a free block down, grows the last one, or appends a new one.  To release it
at once merges what was cut, and nothing more, because no free blocks were adjacent before.
`Undone` tells what is left of the allocation: nothing where the mark stayed, and else the
space that was taken at the mark, as a free block.

* `Allocated.exists_undone` — what releasing does to the list of blocks;
* `Twin.agrees` — arenas with the same blocks have the same words in their headers;
* `Orderly.free_undoes` — an allocation that succeeds can be released, and unless it moved the
  mark everything that the allocator knows is as it was.

Design notes: the payload need not be as it was, since an allocation may fill it and a cut
writes a header into it.  So arenas are compared by their heaps and the words of their headers
(`Arena.Agrees`).
-/
import Hart.Proofs.Heap.Coalescing
import Hart.Proofs.Heap.FirstFit
import Hart.Proofs.Heap.Twins

namespace Hart

open AllocM

variable {x : Xlen}

/-! ### What is left of an allocation -/

/-- List and mark after an allocation of `need` bytes was made and released, from the list and
the mark before it. -/
inductive Undone (x : Xlen) (need : Nat) (bs : List Block) (brk : Nat) : List Block → Nat → Prop
  | same : Undone x need bs brk bs brk
  | grown {l : List Block} {b : Block} (heq : bs = l ++ [b]) (hfree : b.free = true)
      (hstop : b.stop x = brk) (hlt : b.size < need) :
      Undone x need bs brk (l ++ [b.resize need]) (b.payload x + need)
  | appended : Undone x need bs brk (bs ++ [⟨wholeCells x brk, need, true⟩])
      (wholeCells x brk + headerSize x + need)

variable {need limit low brk brk' : Nat} {bs bs' l r : List Block} {b : Block}

/-- Whether a block merges with those before it is told by its address and its state. -/
theorem apart_concat_of_eq {c : Block} (h : Apart x (l ++ [b])) (haddress : c.address = b.address)
    (hfree : c.free = b.free) : Apart x (l ++ [c]) := by
  refine List.IsChain.append (apart_left h) (List.isChain_singleton c) fun d hd e he hm => ?_
  obtain ⟨l, rfl⟩ := List.getLast?_eq_some_iff.1 hd
  obtain rfl : c = e := Option.some.inj he
  rw [List.append_assoc, List.singleton_append] at h
  refine (apart_append_cons_cons.1 h).2.1 ⟨hm.1, ?_, ?_⟩
  · rw [← hfree]
    exact hm.2.1
  · rw [← haddress]
    exact hm.2.2

theorem Block.release_take_resize (hfree : b.free = true) (size : Nat) :
    (b.take.resize size).release = b.resize size :=
  congrArg (Block.resize · size) (Block.release_of_free hfree)

/-- A free block that was cut down and is released is the block that it was. -/
theorem released_cut (hfree : b.free = true) (hapart : Apart x (l ++ b :: r)) :
    released x l (cut x b.take need r).1 (cut x b.take need r).2 = l ++ b :: r := by
  obtain ⟨hl, hr⟩ := apart_append_cons.1 hapart
  have hcut : Apart x (l ++ (cut x b.take need r).1 :: (cut x b.take need r).2) :=
    apart_append_cons.2 ⟨apart_concat (apart_left hl) (by rw [cut_free]; rfl), apart_cut rfl hr.tail⟩
  rw [released_eq_coalesce hcut]
  by_cases hspare : b.take.size - need ≤ headerSize x
  · have htake : b.take.release = b := Block.release_of_free hfree
    rw [cut_of_le hspare, htake, coalesce_of_apart hapart]
  · have hspare : headerSize x < b.size - need := Nat.not_le.1 hspare
    -- The kept part and the rest are adjacent, and merge to the whole.
    have hmerge : Mergeable x (b.resize need) (remainder x b need) := ⟨hfree, rfl, rfl⟩
    have hjoin : joined x (b.resize need) (remainder x b need :: r) = b :: r := by
      rw [joined_of_mergeable hmerge, absorb_remainder hspare]
    have hrest := coalesce_append_joined (x := x) (l ++ [b.resize need]) (remainder x b need) r
    rw [List.append_assoc, List.append_assoc, List.singleton_append, List.singleton_append] at hrest
    rw [cut_of_lt (b := b.take) hspare, Block.release_take_resize hfree]
    show coalesce x (l ++ b.resize need :: joined x (remainder x b need) r) = _
    rw [hrest, ← coalesce_append_joined, hjoin, coalesce_of_apart hapart]

theorem Allocated.exists_undone (h : Allocated x need limit bs brk bs' brk' b)
    (hapart : Apart x bs) (hplaced : Placed x low bs brk) :
    ∃ l r, bs' = l ++ b :: r ∧ Undone x need bs brk (released x l b r) brk' := by
  have hafter := h.apart hapart
  cases h with
  | @reuse l r d _ hl hd =>
    refine ⟨l, (cut x d.take need r).2, rfl, ?_⟩
    rw [released_cut hd.1 hapart]
    exact .same
  | @extend l d _ hnone hfree hstop hlimit =>
    have hlt : d.size < need := Nat.not_le.1 fun hle => hnone d (by simp) ⟨hfree, hle⟩
    refine ⟨l, [], rfl, ?_⟩
    have hstill : Apart x (l ++ [d.resize need]) := apart_concat_of_eq hapart rfl rfl
    rw [released_eq_coalesce hafter, Block.release_take_resize hfree, coalesce_of_apart hstill]
    exact .grown rfl hfree hstop hlt
  | @append _ _ address hnone hlast haddress hlimit =>
    refine ⟨bs, [], rfl, ?_⟩
    have hbrk := (Address.alignUp?_spec haddress).2.1
    -- A block that ends where the new one starts ends at the mark, and would have been grown.
    have hstill : Apart x (bs ++ [⟨address, need, true⟩]) := by
      refine List.IsChain.append hapart (List.isChain_singleton _) fun d hd e he hm => ?_
      obtain ⟨l, rfl⟩ := List.getLast?_eq_some_iff.1 hd
      obtain rfl := Option.some.inj he
      have hstop := (hplaced.of_mem (b := d) (by simp)).2.2
      have hnext : address = d.stop x := hm.2.2
      exact hlast l d rfl ⟨hm.1, by omega⟩
    rw [released_eq_coalesce hafter]
    show Undone x need bs brk (coalesce x (bs ++ [⟨address, need, true⟩])) _
    rw [coalesce_of_apart hstill, Address.eq_wholeCells haddress]
    exact .appended

/-! ### Arenas that agree -/

/-- The four cells of a header say what the header says. -/
theorem Header.loadCell_eq_of_load {m m' : Memory x} {address k : Nat} {b : Header}
    (h : Header.load m address = .ok b) (h' : Header.load m' address = .ok b) (hk : k < 4) :
    m'.loadCell (address + k * x.bytes) = m.loadCell (address + k * x.bytes) := by
  obtain ⟨-, hsize, hstate, hnext, hprev⟩ := Header.load_eq_ok h
  obtain ⟨-, hsize', hstate', hnext', hprev'⟩ := Header.load_eq_ok h'
  match k, hk with
  | 0, _ => rw [Nat.zero_mul, Nat.add_zero, hsize, hsize']
  | 1, _ => rw [Nat.one_mul, hstate, hstate']
  | 2, _ => rw [hnext, hnext']
  | 3, _ => rw [hprev, hprev']

namespace Arena

variable {a a' : Arena x} {hs : List Header}

/-- The second arena has the same heap, the blocks `hs`, and in their headers the words of the
first. -/
structure Agrees (a a' : Arena x) (hs : List Header) : Prop where
  heap_eq : a'.heap = a.heap
  blocks_eq : a'.blocks = .ok hs
  words_eq : ∀ b ∈ hs, ∀ k < 4, a'.memory.loadCell (b.address + k * x.bytes) =
    a.memory.loadCell (b.address + k * x.bytes)

/-- Twins with the same policy agree. -/
theorem Twin.agrees (h : Twin a a' bs) (hpolicy : a'.heap.alwaysCalloc = a.heap.alwaysCalloc) :
    a.Agrees a' (headers null bs) where
  heap_eq := by
    have hhead : a'.heap.head = a.heap.head := h.right.head_eq.trans h.left.head_eq.symm
    have htail : a'.heap.tail = a.heap.tail := h.right.tail_eq.trans h.left.tail_eq.symm
    have hactive : a'.heap.active = a.heap.active := h.right.active_eq.trans h.left.active_eq.symm
    obtain ⟨-, -, hbase, hlimit, hbrk⟩ := h
    cases hheap : a.heap
    cases hheap' : a'.heap
    simp only [hheap, hheap'] at *
    simp only [*]
  blocks_eq := h.right.blocks_eq
  words_eq b hb k hk := by
    obtain ⟨c, hheader⟩ := (walked_of_blocks h.left.blocks_eq).header_eq hb
    obtain ⟨c', hheader'⟩ := (walked_of_blocks h.right.blocks_eq).header_eq hb
    obtain rfl := address_of_header hheader
    obtain rfl := address_of_header hheader'
    exact Header.loadCell_eq_of_load (header_eq_ok hheader).2.1 (header_eq_ok hheader').2.1 hk

theorem Consistent.answered (h : a.Consistent bs) {f : AllocM x Nat} {size p : Nat}
    (hf : f = malloc size ∨ f = calloc size) (hrun : f a = .ok p a') :
    ∃ zeroed, Answered size zeroed a bs p a' := by
  have hyields : ∃ zeroed, Yields f a (Answered size zeroed a bs) := by
    rcases hf with rfl | rfl
    · exact ⟨_, h.yields_malloc size⟩
    · exact ⟨_, h.yields_allocate size true⟩
  obtain ⟨zeroed, q, a'', hrun', hanswered⟩ := hyields
  rw [hrun] at hrun'
  cases hrun'
  exact ⟨zeroed, hanswered⟩

/-- On a heap in order an allocation that succeeded can be released at once.  Where it left the
mark, everything is as it was.  Where it moved the mark, the space that it took there stays, at
the end of a last block that was free already or as a free block of its own. -/
theorem Orderly.free_undoes {f : AllocM x Nat} {size p : Nat} (horderly : a.Orderly hs)
    (hf : f = malloc size ∨ f = calloc size) (hrun : f a = .ok p a') (hp : p ≠ null) :
    ∃ a'' hs', free p a' = .ok () a'' ∧ a''.Orderly hs' ∧
      (a'.heap.brk = a.heap.brk → hs' = hs ∧ a.Agrees a'' hs) ∧
      (a'.heap.brk ≠ a.heap.brk → a''.heap.active = a.heap.active ∧
        ((∃ l b, hs.map Header.block = l ++ [b] ∧ b.free = true ∧ b.stop x = a.heap.brk ∧
            b.size < wholeCells x size ∧
            hs'.map Header.block = l ++ [b.resize (wholeCells x size)] ∧
            a''.heap.brk = b.payload x + wholeCells x size) ∨
          hs'.map Header.block =
              hs.map Header.block ++ [⟨wholeCells x a.heap.brk, wholeCells x size, true⟩] ∧
            a''.heap.brk = wholeCells x a.heap.brk + headerSize x + wholeCells x size)) := by
  obtain ⟨bs, h, rfl⟩ := horderly.exists_consistent
  obtain ⟨zeroed, hanswered⟩ := h.answered hf hrun
  cases hanswered with
  | refused hnone => exact absurd rfl hp
  | @granted need _ bs' b hsize hround hallocated hconsistent hevolves hzero =>
    obtain rfl := Heap.eq_wholeCells hround
    obtain ⟨l, r, rfl, hundone⟩ := hallocated.exists_undone h.apart h.placed
    obtain ⟨_, a'', hfree, h'', hbrk, hevolves'⟩ := hconsistent.yields_free hallocated.free_eq
    refine ⟨a'', _, hfree, h''.orderly, ?_⟩
    have hactive : a''.heap.active = a.heap.active := by
      have hlive := hallocated.live_perm.length_eq
      rw [live_append, live_cons_of_not_free hallocated.free_eq, List.length_append,
        List.length_cons, List.length_cons] at hlive
      rw [h''.active_eq, live_released, List.length_append, h.active_eq]
      omega
    have hcells := le_wholeCells x a.heap.brk
    have hheader := headerSize_pos x
    generalize released x l b r = bs₂ at *
    generalize hmark : a'.heap.brk = brk' at *
    rw [map_block_headers, map_block_headers]
    cases hundone with
    | same =>
      have htwin : Twin a a'' bs := ⟨h, h'', hevolves'.base_eq.trans hevolves.base_eq,
        hevolves'.limit_eq.trans hevolves.limit_eq, hbrk⟩
      refine ⟨fun _ => ⟨rfl, htwin.agrees ?_⟩, fun hmoved => absurd rfl hmoved⟩
      exact hevolves'.policy_eq.trans hevolves.policy_eq
    | @grown l b heq hfree hstop hlt =>
      have hsum : b.stop x = b.payload x + b.size := rfl
      exact ⟨fun hstayed => by omega,
        fun _ => ⟨hactive, .inl ⟨l, b, heq, hfree, hstop, hlt, rfl, hbrk⟩⟩⟩
    | appended =>
      exact ⟨fun hstayed => by omega, fun _ => ⟨hactive, .inr ⟨rfl, hbrk⟩⟩⟩

/-- The hole is cut down, and whole again after the release. -/
theorem free_undoes_hollow :
    ∃ a' a'', malloc 4 hollow = .ok 0x1010 a' ∧ free 0x1010 a' = .ok () a'' ∧
      hollow.Agrees a'' [⟨0x1000, 24, true, 0x1028, 0⟩, ⟨0x1028, 8, false, 0, 0x1000⟩] := by
  have houtcome : (match malloc 4 hollow with
      | .ok p a' => some (p, a'.heap.brk)
      | .error _ _ => none) = some (0x1010, hollow.heap.brk) := by
    decide +kernel
  cases hrun : malloc 4 hollow with
  | error e a' =>
    rw [hrun] at houtcome
    cases houtcome
  | ok p a' =>
    rw [hrun] at houtcome
    obtain ⟨rfl, hbrk⟩ := Prod.mk.inj (Option.some.inj houtcome)
    obtain ⟨a'', hs', hfree, -, hsame, -⟩ :=
      orderly_hollow.free_undoes (.inl rfl) hrun (by decide)
    exact ⟨a', a'', rfl, hfree, (hsame hbrk).2⟩

end Arena

end Hart
