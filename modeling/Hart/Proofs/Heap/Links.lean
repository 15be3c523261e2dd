/-
Edits of the block list on arenas.

Each edit of the allocator turns an arena that represents one list into an arena
that represents the edited list:

* `Around.yields_storeHeader` — the header of a hole is written;
* `Around.yields_unlink` — the block behind a hole leaves the list;
* `Represents.yields_coalesceNext`, `Represents.yields_coalescePrev` — joining
  with the next and with the previous block (`joinNext`, `joinPrev`);
* `Around.yields_split` — cutting a block down (`cut`).

What else happens is bounded by a set `R` of addresses: `Arena.Edited R a a'` says
that no byte outside `R` changed, and nothing of the heap but the ends of its list.

Design notes: `R` is a parameter of every statement, with the bytes that the edit
may touch as its lower bound.  A sequence of edits is then bounded by one set
throughout, and `Edited.trans` needs no unions.
-/
import Hart.Proofs.Heap.Edits
import Hart.Proofs.Heap.Represents

namespace Hart

open AllocM

variable {x : Xlen} {R S : Set Nat}

theorem Placed.le_of_mem_region {low high c : Nat} {bs : List Block} (h : Placed x low bs high)
    (hc : c ∈ region x bs) : low ≤ c := by
  obtain ⟨b, hb, hbc⟩ := hc
  exact (h.of_mem hb).1.trans hbc.1

theorem Placed.lt_of_mem_region {low high c : Nat} {bs : List Block} (h : Placed x low bs high)
    (hc : c ∈ region x bs) : c < high := by
  obtain ⟨b, hb, hbc⟩ := hc
  exact Nat.lt_of_lt_of_le hbc.2 (h.of_mem hb).2.2

theorem headerRegion_subset_region (bs : List Block) : headerRegion x bs ⊆ region x bs :=
  (headerRegion_subset_scratch bs).trans (scratch_subset_region bs)

theorem Header.checkedStop_of_lt {b : Header} (h : b.stop x < wordLimit) :
    b.checkedStop x = .ok (b.stop x) := by
  unfold Header.stop Header.payload at h
  unfold Header.checkedStop
  rw [checkedSum_of_lt (by omega)]
  exact checkedSum_of_lt h

namespace AllocM

/-- The block after `prev` learns that `prev` comes before it, or the heap that
`prev` is the last. -/
def linkBack (next prev : Nat) : AllocM x Unit :=
  if next = null then modifyHeap fun h => { h with tail := prev } else setPrev next prev

/-- The block before `next` learns that `next` comes after it, or the heap that
`next` is the first. -/
def linkFront (prev next : Nat) : AllocM x Unit :=
  if prev = null then modifyHeap fun h => { h with head := next } else setNext prev next

theorem linkFront_bind {α : Type} (prev next : Nat) (f : Unit → AllocM x α) :
    (if prev = null then (modifyHeap fun h => { h with head := next }) >>= f
      else setNext prev next >>= f) = linkFront prev next >>= f := by
  unfold linkFront
  split <;> rfl

/-- Taking out a block that has a block before it. -/
theorem unlink_eq {n : Block} {next prev : Nat} (hprev : prev ≠ null) :
    (unlink (n.header next prev) : AllocM x Unit) =
      setNext prev next >>= fun _ => linkBack next prev := by
  unfold unlink linkBack
  rw [Block.header_prev, Block.header_next, if_neg hprev]

end AllocM

namespace Arena

/-- No byte outside `R` changed, and the window and the policies stayed. -/
structure Evolves (R : Set Nat) (a a' : Arena x) : Prop where
  base_eq : a'.heap.base = a.heap.base
  limit_eq : a'.heap.limit = a.heap.limit
  policy_eq : a'.heap.alwaysCalloc = a.heap.alwaysCalloc
  aligned_eq : a'.memory.aligned = a.memory.aligned
  loadByte_eq : ∀ c < x.space, c ∉ R → a'.memory.loadByte c = a.memory.loadByte c

/-- The mark and the number of live allocations stayed as well. -/
structure Edited (R : Set Nat) (a a' : Arena x) : Prop extends Evolves R a a' where
  brk_eq : a'.heap.brk = a.heap.brk
  active_eq : a'.heap.active = a.heap.active

variable {a a' a'' : Arena x} {l r bs : List Block} {b d n : Block}

theorem Evolves.refl (R : Set Nat) (a : Arena x) : Evolves R a a :=
  ⟨rfl, rfl, rfl, rfl, fun _ _ _ => rfl⟩

theorem Evolves.trans (h : Evolves R a a') (h' : Evolves R a' a'') : Evolves R a a'' where
  base_eq := h'.base_eq.trans h.base_eq
  limit_eq := h'.limit_eq.trans h.limit_eq
  policy_eq := h'.policy_eq.trans h.policy_eq
  aligned_eq := h'.aligned_eq.trans h.aligned_eq
  loadByte_eq c hc hR := (h'.loadByte_eq c hc hR).trans (h.loadByte_eq c hc hR)

theorem Evolves.mono (h : Evolves R a a') (hRS : R ⊆ S) : Evolves S a a' where
  base_eq := h.base_eq
  limit_eq := h.limit_eq
  policy_eq := h.policy_eq
  aligned_eq := h.aligned_eq
  loadByte_eq c hc hS := h.loadByte_eq c hc fun hR => hS (hRS hR)

theorem evolves_heap (R : Set Nat) (a : Arena x) {h : Heap x} (hbase : h.base = a.heap.base)
    (hlimit : h.limit = a.heap.limit) (hpolicy : h.alwaysCalloc = a.heap.alwaysCalloc) :
    Evolves R a { a with heap := h } :=
  ⟨hbase, hlimit, hpolicy, rfl, fun _ _ _ => rfl⟩

theorem Edited.refl (R : Set Nat) (a : Arena x) : Edited R a a :=
  ⟨Evolves.refl R a, rfl, rfl⟩

theorem Edited.mono (h : Edited R a a') (hRS : R ⊆ S) : Edited S a a' :=
  ⟨h.toEvolves.mono hRS, h.brk_eq, h.active_eq⟩

theorem Edited.trans (h : Edited R a a') (h' : Edited R a' a'') : Edited R a a'' :=
  ⟨h.toEvolves.trans h'.toEvolves, h'.brk_eq.trans h.brk_eq, h'.active_eq.trans h.active_eq⟩

/-- The headers of blocks are still stored when their bytes are not in `R`. -/
theorem Evolves.linked (h : Evolves R a a') {prev next : Nat}
    (hlinked : Linked a.memory prev bs next) (hspace : ∀ c ∈ headerRegion x bs, c < x.space)
    (hR : ∀ c ∈ headerRegion x bs, c ∉ R) : Linked a'.memory prev bs next :=
  hlinked.congr fun b hb c hc =>
    h.loadByte_eq c (hspace c ⟨b, hb, hc⟩) (hR c ⟨b, hb, hc⟩)

theorem Laid.of_edited (h : a.Laid bs) (he : Edited R a a') : a'.Laid bs where
  window := by
    rw [he.base_eq, he.limit_eq]
    exact h.window
  brk_le := by
    rw [he.brk_eq, he.limit_eq]
    exact h.brk_le
  placed := by
    rw [he.base_eq, he.brk_eq]
    exact h.placed

theorem Laid.lt_space (h : a.Laid bs) {c : Nat} (hc : c ∈ region x bs) : c < x.space :=
  Nat.lt_of_lt_of_le (h.placed.lt_of_mem_region hc) (h.brk_le.trans h.window.limit_le_space)

theorem edited_setHeader (a : Arena x) {b : Header} (hplace : HeaderPlace x b.address)
    (hR : Set.Ico b.address (b.address + headerSize x) ⊆ R) :
    Edited R a { a with memory := a.memory.setHeader b } where
  base_eq := rfl
  limit_eq := rfl
  policy_eq := rfl
  aligned_eq := Memory.aligned_setHeader _ _
  loadByte_eq _ hc hout := Memory.loadByte_setHeader _ hplace hc fun hin => hout (hR hin)
  brk_eq := rfl
  active_eq := rfl

/-- A cell of a header lies in the header. -/
theorem cell_subset_headerBytes {k : Nat} (hk : k < 4) (b : Block) :
    Set.Ico (b.address + k * x.bytes) (b.address + k * x.bytes + x.bytes) ⊆ b.headerBytes x := by
  rintro c ⟨hlow, hhigh⟩
  have hcells : (k + 1) * x.bytes ≤ 4 * x.bytes := Nat.mul_le_mul_right _ hk
  rw [Nat.succ_mul] at hcells
  refine ⟨by omega, ?_⟩
  unfold Block.payload headerSize
  omega

theorem edited_setCell (a : Arena x) {k v : Nat} (hk : k < 4) (hplace : HeaderPlace x b.address)
    (hR : b.headerBytes x ⊆ R) :
    Edited R a { a with memory := a.memory.setCell (b.address + k * x.bytes) v } where
  base_eq := rfl
  limit_eq := rfl
  policy_eq := rfl
  aligned_eq := Memory.aligned_setCell _ _ _
  loadByte_eq _ hc hout :=
    Memory.loadByte_setCell _ _ (hplace.isCell hk) hc fun hin =>
      hout (hR (cell_subset_headerBytes hk b hin))
  brk_eq := rfl
  active_eq := rfl

/-! ### Filling a hole and taking a block out -/

theorem Around.placed_sides (h : a.Around l b r) :
    Placed x a.heap.base l b.address ∧ b.Whole x ∧ Placed x (b.stop x) r a.heap.brk :=
  placed_append_cons.1 h.placed

/-- Edits inside the hole leave its two sides alone. -/
theorem Around.of_edited (h : a.Around l b r) (he : Edited (b.bytes x) a a')
    (hhead : a'.heap.head = a.heap.head) (htail : a'.heap.tail = a.heap.tail) :
    a'.Around l b r where
  toLaid := h.toLaid.of_edited he
  head_eq := hhead.trans h.head_eq
  tail_eq := htail.trans h.tail_eq
  before := by
    refine he.linked h.before (fun c hc => ?_) fun c hc hcb => ?_
    · exact h.toLaid.lt_space (by simp [headerRegion_subset_region l hc])
    · have hlt := h.placed_sides.1.lt_of_mem_region (headerRegion_subset_region l hc)
      exact absurd hcb.1 (Nat.not_le.2 hlt)
  after := by
    refine he.linked h.after (fun c hc => ?_) fun c hc hcb => ?_
    · exact h.toLaid.lt_space (by simp [headerRegion_subset_region r hc])
    · have hle := h.placed_sides.2.2.le_of_mem_region (headerRegion_subset_region r hc)
      exact absurd hcb.2 (Nat.not_lt.2 hle)

/-- Another block may take the place of a hole at the same address. -/
theorem Around.replace (h : a.Around l b r) (haddress : d.address = b.address)
    (hplaced : Placed x a.heap.base (l ++ d :: r) a.heap.brk) : a.Around l d r where
  toLaid := ⟨h.window, h.brk_le, hplaced⟩
  head_eq := haddress ▸ h.head_eq
  tail_eq := haddress ▸ h.tail_eq
  before := haddress ▸ h.before
  after := haddress ▸ h.after

theorem Around.yields_storeHeader (h : a.Around l b r) (hR : b.headerBytes x ⊆ R) :
    Yields (storeHeader (b.header (front r null) (back null l))) a fun _ a' =>
      a'.Represents (l ++ b :: r) ∧ Edited R a a' := by
  have hmem : b ∈ l ++ b :: r := by simp
  have hplace : HeaderPlace x b.address := h.toLaid.headerPlace hmem
  have hholds : (a.memory.setHeader (b.header (front r null) (back null l))).Holds
      (b.header (front r null) (back null l)) := by
    refine Memory.holds_setHeader a.memory hplace (h.toLaid.size_lt hmem) ?_ ?_
    · exact h.toLaid.front_lt fun c hc => by simp [hc]
    · exact h.toLaid.back_lt fun c hc => by simp [hc]
  rw [AllocM.yields_storeHeader (b := b.header (front r null) (back null l)) hplace]
  refine ⟨Around.represents ?_ hholds, edited_setHeader a hplace hR⟩
  exact h.of_edited (edited_setHeader a hplace (b.headerBytes_subset_bytes x)) rfl rfl

/-- The step that ends an edit: the blocks `r` learn that `b` comes before them,
or the heap that `b` is the last. -/
theorem yields_linkBack {prev : Nat} (hlaid : a.Laid (l ++ b :: r))
    (hhead : a.heap.head = front l b.address) (htail : r ≠ [] → a.heap.tail = back b.address r)
    (hbefore : Linked a.memory null l b.address) (hafter : Linked a.memory prev r null) :
    Yields (linkBack (front r null) b.address) a fun _ a' =>
      a'.Around l b r ∧ Edited (headerRegion x r) a a' := by
  cases r with
  | nil =>
    rw [front_nil, linkBack, if_pos rfl, yields_modifyHeap]
    have hedited : Edited (headerRegion x []) a
        { a with heap := { a.heap with tail := b.address } } :=
      ⟨evolves_heap _ a rfl rfl rfl, rfl, rfl⟩
    exact ⟨⟨hlaid.of_edited hedited, hhead, rfl, hbefore, trivial⟩, hedited⟩
  | cons c r =>
    have hmemc : c ∈ l ++ b :: c :: r := by simp
    have hplacec := hlaid.headerPlace hmemc
    obtain ⟨hl, -, -, -, hr⟩ := placed_append_cons.1 hlaid.placed
    have hbc := (placed_append_cons.1 hlaid.placed).2.2.1
    have hedited : Edited (c.headerBytes x) a
        { a with memory := a.memory.setCell (c.address + 3 * x.bytes) b.address } :=
      edited_setCell a (by decide) hplacec subset_rfl
    rw [front_cons, linkBack, if_neg (hlaid.address_ne hmemc), AllocM.yields_setPrev hplacec]
    refine ⟨⟨hlaid.of_edited hedited, hhead, htail (List.cons_ne_nil c r), ?_, ?_, ?_⟩, ?_⟩
    · -- The headers before `b` lie below the header of `c`.
      refine hedited.linked hbefore (fun d hd => ?_) fun d hd hdc => ?_
      · exact hlaid.lt_space (by simp [headerRegion_subset_region l hd])
      · have hlt := hl.lt_of_mem_region (headerRegion_subset_region l hd)
        have hstop := b.address_lt_stop x
        exact absurd hdc.1 (by omega)
    · exact Memory.Holds.setPrev hafter.1 hplacec (hlaid.address_lt (b := b) (by simp))
    · refine hedited.linked hafter.2 (fun d hd => ?_) fun d hd hdc => ?_
      · exact hlaid.lt_space (by simp [headerRegion_subset_region r hd])
      · have hle := hr.le_of_mem_region (headerRegion_subset_region r hd)
        have hstop := Nat.le_add_right (c.payload x) c.size
        exact absurd hdc.2 (Nat.not_lt.2 (hstop.trans hle))
    · exact hedited.mono (headerBytes_subset_headerRegion List.mem_cons_self)

/-- The block `n` behind the hole leaves the list, and any block may take the
place of the hole. -/
theorem Around.yields_unlink (h : a.Around l b (n :: r)) (haddress : d.address = b.address)
    (hplaced : Placed x a.heap.base (l ++ d :: r) a.heap.brk) (hb : b.headerBytes x ⊆ R)
    (hr : headerRegion x r ⊆ R) :
    Yields (unlink (n.header (front r null) b.address)) a fun _ a' =>
      a'.Around l d r ∧ Edited R a a' := by
  have hmem : b ∈ l ++ b :: n :: r := by simp
  have hplace := h.toLaid.headerPlace hmem
  have hlaid : a.Laid (l ++ d :: r) := ⟨h.window, h.brk_le, hplaced⟩
  -- First `b` is linked to what follows `n`, inside its own header.
  have hnext : Edited (b.headerBytes x) a
      { a with memory := a.memory.setCell (b.address + 2 * x.bytes) (front r null) } :=
    edited_setCell a (by decide) hplace subset_rfl
  have haround := h.of_edited (hnext.mono (b.headerBytes_subset_bytes x)) rfl rfl
  have htail : r ≠ [] → a.heap.tail = back d.address r := by
    intro hne
    refine haround.tail_eq.trans ?_
    cases r with
    | nil => exact absurd rfl hne
    | cons c r => rfl
  have hlink := yields_linkBack (hlaid.of_edited hnext) (haddress ▸ haround.head_eq) htail
    (haddress ▸ haround.before) haround.after.2
  rw [haddress] at hlink
  rw [unlink_eq (h.toLaid.address_ne hmem), yields_bind, AllocM.yields_setNext hplace]
  refine hlink.imp fun _ a' hpost => ?_
  exact ⟨hpost.1, (hnext.mono hb).trans (hpost.2.mono hr)⟩

/-- Only the last block reaches up to the mark. -/
theorem Laid.eq_nil_of_stop_eq (h : a.Laid (l ++ b :: r)) (hstop : b.stop x = a.heap.brk) :
    r = [] := by
  cases r with
  | nil => rfl
  | cons c r =>
    obtain ⟨-, -, hle, -, hr⟩ := placed_append_cons.1 h.placed
    have hlt := c.address_lt_stop x
    have hbrk := hr.le
    omega

/-! ### Joining -/

theorem Laid.checkedStop_eq (h : a.Laid bs) (hb : b ∈ bs) (next prev : Nat) :
    (b.header next prev).checkedStop x = .ok (b.stop x) :=
  Header.checkedStop_of_lt (b := b.header next prev) (h.stop_lt_wordLimit hb)

theorem Laid.size_absorb_eq (h : a.Laid bs) (hn : n ∈ bs) (hstop : n.address = b.stop x) :
    checkedSum b.size (headerSize x + n.size) = .ok (b.absorb x n).size := by
  have hlt := h.stop_lt_wordLimit hn
  unfold Block.stop Block.payload at hlt hstop
  exact checkedSum_of_lt (by omega)

/-- The block takes in the free one behind it. -/
theorem Represents.yields_absorb (h : a.Represents (l ++ b :: n :: r)) (hmerge : Mergeable x b n)
    (hR : headerRegion x (b :: n :: r) ⊆ R) :
    Yields (unlink (n.header (front r null) b.address) >>= fun _ =>
        AllocM.ofExcept (checkedSum b.size (headerSize x + n.size)) >>= fun size =>
        storeHeader { b.header n.address (back null l) with size, next := front r null } >>= fun _ =>
        pure { b.header n.address (back null l) with size, next := front r null }) a fun v a' =>
      v = (b.absorb x n).header (front r null) (back null l) ∧
        a'.Represents (l ++ b.absorb x n :: r) ∧ Edited R a a' := by
  rw [headerRegion_cons, headerRegion_cons] at hR
  have hb : b.headerBytes x ⊆ R := Set.subset_union_left.trans hR
  have hr : headerRegion x r ⊆ R :=
    Set.subset_union_right.trans (Set.subset_union_right.trans hR)
  have hplaced := placed_absorb h.placed hmerge.2.2
  refine (h.around.yields_unlink (d := b.absorb x n) rfl hplaced hb hr).bind ?_
  rintro - a₁ ⟨haround, hedited⟩
  rw [yields_bind, yields_ofExcept (h.toLaid.size_absorb_eq (by simp) hmerge.2.2)]
  refine (haround.yields_storeHeader hb).bind ?_
  rintro - a₂ ⟨hrep, hedited'⟩
  rw [yields_pure]
  exact ⟨rfl, hrep, hedited.trans hedited'⟩

theorem Represents.yields_coalesceNext (h : a.Represents (l ++ b :: r))
    (hR : headerRegion x (b :: r) ⊆ R) :
    Yields (coalesceNext (b.header (front r null) (back null l))) a fun v a' =>
      v = (joinNext x b r).1.header (front (joinNext x b r).2 null) (back null l) ∧
        a'.Represents (l ++ joined x b r) ∧ Edited R a a' := by
  unfold coalesceNext
  rw [Block.header_free, Block.header_next]
  cases r with
  | nil =>
    rw [if_pos (.inr rfl), yields_pure]
    exact ⟨rfl, h, Edited.refl R a⟩
  | cons n r =>
    -- Whichever test fails, nothing happens to blocks that are not to be joined.
    have hstay (hnot : ¬ Mergeable x b n) :
        Yields (pure (b.header (front (n :: r) null) (back null l))) a fun v a' =>
          v = (joinNext x b (n :: r)).1.header (front (joinNext x b (n :: r)).2 null)
            (back null l) ∧ a'.Represents (l ++ joined x b (n :: r)) ∧ Edited R a a' := by
      rw [yields_pure, joined, joinNext_of_not_mergeable hnot]
      exact ⟨rfl, h, Edited.refl R a⟩
    have hmem : b ∈ l ++ b :: n :: r := by simp
    have hmemn : n ∈ l ++ b :: n :: r := by simp
    by_cases hfree : b.free = true
    · have hstart : ¬ (b.free = false ∨ front (n :: r) null = null) := by
        rintro (hnot | hnull)
        · rw [hfree] at hnot
          exact Bool.noConfusion hnot
        · exact h.toLaid.address_ne hmemn hnull
      rw [if_neg hstart, yields_bind, yields_ofExcept (h.toLaid.checkedStop_eq hmem _ _), front_cons]
      by_cases hstop : n.address = b.stop x
      · rw [if_neg (not_not.2 hstop), yields_bind, AllocM.header,
          yields_inspect h.around.header_next_eq, Block.header_free]
        by_cases hfreen : n.free = true
        · have hmerge : Mergeable x b n := ⟨hfree, hfreen, hstop⟩
          rw [if_neg (by rw [hfreen]; exact Bool.noConfusion), joined,
            joinNext_of_mergeable hmerge]
          exact h.yields_absorb hmerge hR
        · rw [if_pos (by simpa using hfreen)]
          exact hstay fun hm => hfreen hm.2.1
      · rw [if_pos hstop]
        exact hstay fun hm => hstop hm.2.2
    · rw [if_pos (.inl (by simpa using hfree))]
      exact hstay fun hm => hfree hm.1

theorem Represents.yields_coalescePrev (h : a.Represents (l ++ b :: r))
    (hR : headerRegion x (l ++ b :: r) ⊆ R) :
    Yields (coalescePrev (b.header (front r null) (back null l))) a fun _ a' =>
      a'.Represents (joinPrev x l b r) ∧ Edited R a a' := by
  unfold coalescePrev
  rw [Block.header_prev, Block.header_address]
  rcases List.eq_nil_or_concat l with rfl | ⟨l, p, rfl⟩
  · rw [if_pos (back_nil null), yields_pure, joinPrev_nil]
    exact ⟨h, Edited.refl R a⟩
  · rw [List.concat_eq_append] at *
    rw [List.append_assoc, List.singleton_append] at h hR
    have hmem : p ∈ l ++ p :: b :: r := by simp
    have hback : back null (l ++ [p]) = p.address := back_append null l [p]
    rw [hback, if_neg (h.toLaid.address_ne hmem), yields_bind, AllocM.header,
      yields_inspect h.header_eq, yields_bind, yields_ofExcept (h.toLaid.checkedStop_eq hmem _ _),
      Block.header_free, joinPrev_concat]
    -- The test made here is the one that joining makes again.
    by_cases hjoin : p.free = true ∧ p.stop x = b.address
    · rw [if_pos hjoin]
      rw [headerRegion_append] at hR
      refine (h.yields_coalesceNext (Set.subset_union_right.trans hR)).bind ?_
      rintro v a' ⟨-, hrep, hedited⟩
      rw [yields_pure]
      exact ⟨hrep, hedited⟩
    · have hnot : ¬ Mergeable x p b := fun hm => hjoin ⟨hm.1, hm.2.2.symm⟩
      rw [if_neg hjoin, yields_pure, joined, joinNext_of_not_mergeable hnot]
      exact ⟨h, Edited.refl R a⟩

/-! ### Cutting a block down -/

/-- Cutting a block that is larger than asked for by more than a header. -/
theorem split_eq {need : Nat} {next prev : Nat} (hspare : headerSize x < b.size - need)
    (hle : need ≤ b.size) (hstop : b.stop x < wordLimit) :
    (split (b.header next prev) need : AllocM x Header) =
      storeHeader ((remainder x b need).header next b.address) >>= fun _ =>
      storeHeader ((b.resize need).header (remainder x b need).address prev) >>=
      fun _ =>
      linkBack next (remainder x b need).address >>= fun _ =>
      coalesceNext ((remainder x b need).header next b.address) >>= fun _ =>
      pure ((b.resize need).header (remainder x b need).address prev) := by
  have hdiff : checkedDifference b.size need = .ok (b.size - need) := checkedDifference_of_le hle
  have hpayload : checkedSum b.address (headerSize x) = .ok (b.payload x) :=
    checkedSum_of_lt (Nat.lt_of_le_of_lt (Nat.le_add_right _ _) hstop)
  have haddress : checkedSum (b.payload x) need = .ok (b.payload x + need) :=
    checkedSum_of_lt (Nat.lt_of_le_of_lt (Nat.add_le_add_left hle _) hstop)
  have hok {α β : Type} (v : α) (f : α → AllocM x β) : (ofExcept (.ok v) >>= f) = f v := rfl
  unfold split linkBack
  rw [Block.header_size, Block.header_address, hdiff, hok, if_neg (Nat.not_le.2 hspare), hpayload,
    hok, haddress, hok]
  by_cases hnext : next = null
  · subst hnext
    rfl
  · simp only [Block.header_next, hnext, if_false]
    rfl

/-- The two headers of a block that is cut in two. -/
theorem Around.yields_storeParts {need : Nat} (h : a.Around l b r)
    (hlaid : a.Laid (l ++ b.resize need :: remainder x b need :: r))
    (hrest : (remainder x b need).bytes x ⊆ b.bytes x) {f : AllocM x Header}
    {Q : Header → Arena x → Prop}
    (hf : ∀ a', a'.Around l b r →
      Edited (b.headerBytes x ∪ (remainder x b need).bytes x) a a' →
      a'.memory.Holds ((b.resize need).header (remainder x b need).address (back null l)) →
      a'.memory.Holds ((remainder x b need).header (front r null) b.address) → Yields f a' Q) :
    Yields
      (storeHeader ((remainder x b need).header (front r null) b.address) >>= fun _ =>
        storeHeader ((b.resize need).header (remainder x b need).address (back null l)) >>=
        fun _ => f) a Q := by
  have hkeptmem : b.resize need ∈ l ++ b.resize need :: remainder x b need :: r := by simp
  have hrestmem : remainder x b need ∈ l ++ b.resize need :: remainder x b need :: r := by simp
  have hkeptplace : HeaderPlace x (b.resize need).address := hlaid.headerPlace hkeptmem
  have hrestplace := hlaid.headerPlace hrestmem
  have haddress : b.address < x.space := hlaid.address_lt (b := b.resize need) hkeptmem
  have hfront : front r null < x.space := hlaid.front_lt fun c hc => by simp [hc]
  have hback : back null l < x.space := hlaid.back_lt fun c hc => by simp [hc]
  have hrestholds := Memory.holds_setHeader a.memory
    (b := (remainder x b need).header (front r null) b.address) hrestplace
    (hlaid.size_lt hrestmem) hfront haddress
  have hedited₁ : Edited (b.headerBytes x ∪ (remainder x b need).bytes x) a { a with
      memory := a.memory.setHeader ((remainder x b need).header (front r null) b.address) } :=
    edited_setHeader a hrestplace
      (((remainder x b need).headerBytes_subset_bytes x).trans Set.subset_union_right)
  have hedited₂ := edited_setHeader (R := (b.resize need).headerBytes x)
    { a with memory := a.memory.setHeader ((remainder x b need).header (front r null) b.address) }
    (b := (b.resize need).header (remainder x b need).address (back null l)) hkeptplace subset_rfl
  have hedited := hedited₁.trans (hedited₂.mono Set.subset_union_left)
  have hinside := hedited.mono (Set.union_subset (b.headerBytes_subset_bytes x) hrest)
  have hkeptholds := Memory.holds_setHeader
    (a.memory.setHeader ((remainder x b need).header (front r null) b.address))
    (b := (b.resize need).header (remainder x b need).address (back null l)) hkeptplace
    (hlaid.size_lt hkeptmem) (hlaid.address_lt hrestmem) hback
  rw [yields_bind, AllocM.yields_storeHeader
      (b := (remainder x b need).header (front r null) b.address) hrestplace, yields_bind,
    AllocM.yields_storeHeader
      (b := (b.resize need).header (remainder x b need).address (back null l)) hkeptplace]
  refine hf _ (h.of_edited hinside rfl rfl) hedited hkeptholds (hrestholds.congr ?_)
  -- The header of the rest lies behind the block that is kept.
  intro c hlow hhigh
  have hspace := hrestplace.stop_le
  have hkept := (b.resize need).size.zero_le
  refine hedited₂.loadByte_eq c (Nat.lt_of_lt_of_le hhigh hspace) fun hc => ?_
  have hstop := (placed_append_cons.1 hlaid.placed).2.2.1
  have hc := hc.2
  have hlow : (remainder x b need).address ≤ c := hlow
  unfold Block.stop at hstop
  omega

/-- A block that is hardly larger than asked for is not cut, only written. -/
theorem Around.yields_splitWhole {need : Nat} (h : a.Around l b r) (hle : need ≤ b.size)
    (hspare : b.size - need ≤ headerSize x) (hb : b.headerBytes x ⊆ R) :
    Yields (split (b.header (front r null) (back null l)) need) a fun v a' =>
      v = b.header (front r null) (back null l) ∧ a'.Represents (l ++ b :: r) ∧ Edited R a a' := by
  have hdiff : checkedDifference b.size need = .ok (b.size - need) := checkedDifference_of_le hle
  unfold split
  rw [Block.header_size, yields_bind, yields_ofExcept hdiff, if_pos hspare]
  refine (h.yields_storeHeader hb).bind ?_
  rintro - a' ⟨hrep, hedited⟩
  rw [yields_pure]
  exact ⟨rfl, hrep, hedited⟩

theorem Around.yields_split {need : Nat} (h : a.Around l b r) (hpos : 0 < need)
    (hneed : x.bytes ∣ need) (hle : need ≤ b.size) (hb : b.headerBytes x ⊆ R)
    (hspared : Set.Ico (b.payload x + need) (b.stop x) ⊆ R) (hr : headerRegion x r ⊆ R) :
    Yields (split (b.header (front r null) (back null l)) need) a fun v a' =>
      v = (cut x b need r).1.header (front (cut x b need r).2 null) (back null l) ∧
        a'.Represents (l ++ (cut x b need r).1 :: (cut x b need r).2) ∧ Edited R a a' := by
  have hmem : b ∈ l ++ b :: r := by simp
  by_cases hspare : b.size - need ≤ headerSize x
  · rw [cut_of_le hspare]
    exact h.yields_splitWhole hle hspare hb
  · have hspare := Nat.not_le.1 hspare
    have hbytes : (remainder x b need).bytes x = Set.Ico (b.payload x + need) (b.stop x) := by
      rw [Block.bytes, stop_remainder hspare]
      rfl
    rw [← hbytes] at hspared
    rw [split_eq hspare hle (h.toLaid.stop_lt_wordLimit hmem), cut_of_lt hspare]
    -- Both headers are written inside the block, so its neighbours stay as they are.
    have hplaced := placed_split h.placed hpos hneed hspare
    have hlaid : a.Laid (l ++ b.resize need :: remainder x b need :: r) :=
      ⟨h.window, h.brk_le, hplaced⟩
    have hrestbytes : (remainder x b need).bytes x ⊆ b.bytes x := by
      rw [hbytes]
      exact Set.Ico_subset_Ico_left ((b.address_lt_payload x).le.trans (Nat.le_add_right _ _))
    refine h.yields_storeParts hlaid hrestbytes fun a₁ haround hedited hkept hrest => ?_
    have hlaid₁ : a₁.Laid ((l ++ [b.resize need]) ++ remainder x b need :: r) := by
      rw [List.append_assoc]
      exact hlaid.of_edited hedited
    have hhead : a₁.heap.head = front (l ++ [b.resize need]) (remainder x b need).address :=
      haround.head_eq.trans (front_append l [b.resize need] _).symm
    have htail : r ≠ [] → a₁.heap.tail = back (remainder x b need).address r := by
      intro hne
      refine haround.tail_eq.trans ?_
      cases r with
      | nil => exact absurd rfl hne
      | cons c r => rfl
    have hbefore : Linked a₁.memory null (l ++ [b.resize need]) (remainder x b need).address :=
      linked_append_cons.2 ⟨haround.before, hkept, trivial⟩
    have hback : back null (l ++ [b.resize need]) = b.address := back_append null l _
    rw [yields_bind]
    refine (yields_linkBack hlaid₁ hhead htail hbefore haround.after).imp ?_
    rintro - a₂ ⟨haround₂, hedited₂⟩
    -- The header of the rest lies before the headers that were told of it.
    have hholds : a₂.memory.Holds
        ((remainder x b need).header (front r null) (back null (l ++ [b.resize need]))) := by
      rw [hback]
      refine hrest.congr fun c hlow hhigh => hedited₂.loadByte_eq c ?_ fun hc => ?_
      · exact Nat.lt_of_lt_of_le hhigh (hlaid₁.headerPlace (b := remainder x b need) (by simp)).stop_le
      · have hle := (placed_append_cons.1 hlaid₁.placed).2.2.le_of_mem_region
          (headerRegion_subset_region r hc)
        have hhigh : c < (remainder x b need).payload x := hhigh
        unfold Block.stop at hle
        omega
    have hrep := haround₂.represents hholds
    have hregion : headerRegion x (remainder x b need :: r) ⊆ R := by
      rw [headerRegion_cons]
      refine Set.union_subset ?_ hr
      exact ((remainder x b need).headerBytes_subset_bytes x).trans hspared
    have hjoin := hrep.yields_coalesceNext hregion
    rw [hback] at hjoin
    refine hjoin.bind ?_
    rintro v a₃ ⟨-, hrep₃, hedited₃⟩
    rw [yields_pure]
    have hedited' := hedited.mono (Set.union_subset hb hspared)
    refine ⟨?_, ?_, (hedited'.trans (hedited₂.mono hr)).trans hedited₃⟩
    · rw [joined, front_cons, joinNext_address]
    · rw [List.append_assoc] at hrep₃
      exact hrep₃

end Arena

end Hart
