/-
Resizing allocations.

`Resized x need limit bs brk b bs' brk' b'` says that the allocated block `b` of
the list `bs` becomes `b'` in place when it is to hold `need` bytes.  There are
three ways:

* `shrink` — the block is large enough and is cut down;
* `absorb` — the free block right behind it is taken in, and the two are cut down;
* `grow` — the block is the last one and ends at the mark, which moves up.

`Consistent.yields_realloc` says what a request leads to: one of these, else a
move to a new allocation, else null and nothing changed.  A pointer that is not
the payload of an allocated block is refused (`Represents.realloc_eq_error`).
-/
import Hart.Proofs.Heap.Release

namespace Hart

open AllocM

variable {x : Xlen} {R : Set Nat}

/-- The block `b` reaches `need` bytes with the free block `n` right behind it. -/
def Absorbs (x : Xlen) (need : Nat) (b n : Block) : Prop :=
  n.free = true ∧ n.address = b.stop x ∧ need ≤ (b.absorb x n).size

instance (need : Nat) (b n : Block) : Decidable (Absorbs x need b n) :=
  inferInstanceAs (Decidable (_ ∧ _))

/-- The block that an allocated block becomes in place. -/
inductive Resized (x : Xlen) (need limit : Nat) :
    List Block → Nat → Block → List Block → Nat → Block → Prop
  | shrink {l r : List Block} {b : Block} {brk : Nat} (hle : need ≤ b.size) :
      Resized x need limit (l ++ b :: r) brk b
        (l ++ (cut x b need r).1 :: (cut x b need r).2) brk (cut x b need r).1
  | absorb {l r : List Block} {b n : Block} {brk : Nat} (hlt : b.size < need)
      (habsorbs : Absorbs x need b n) :
      Resized x need limit (l ++ b :: n :: r) brk b
        (l ++ (cut x (b.absorb x n) need r).1 :: (cut x (b.absorb x n) need r).2) brk
        (cut x (b.absorb x n) need r).1
  | grow {l : List Block} {b : Block} {brk : Nat} (hlt : b.size < need) (hstop : b.stop x = brk)
      (hlimit : b.payload x + need ≤ limit) :
      Resized x need limit (l ++ [b]) brk b (l ++ [b.resize need]) (b.payload x + need)
        (b.resize need)

/-- The addresses that resizing a block may write: what belongs to the allocator,
what the block gives up, and the space above the mark. -/
def resizable (x : Xlen) (need limit : Nat) (bs : List Block) (brk : Nat) (b : Block) : Set Nat :=
  scratch x bs ∪ Set.Ico (b.payload x + need) (b.stop x) ∪ Set.Ico brk limit

theorem scratch_subset_resizable (need limit : Nat) (bs : List Block) (brk : Nat) (b : Block) :
    scratch x bs ⊆ resizable x need limit bs brk b :=
  Set.subset_union_left.trans Set.subset_union_left

namespace Resized

variable {need limit brk brk' : Nat} {bs bs' : List Block} {b b' : Block}

theorem address_eq (h : Resized x need limit bs brk b bs' brk' b') : b'.address = b.address := by
  cases h with
  | shrink hle => exact cut_address _ _ _
  | absorb hlt habsorbs => exact cut_address _ _ _
  | grow hlt hstop hlimit => rfl

theorem free_eq (h : Resized x need limit bs brk b bs' brk' b') : b'.free = b.free := by
  cases h with
  | shrink hle => exact cut_free _ _ _
  | absorb hlt habsorbs => exact cut_free _ _ _
  | grow hlt hstop hlimit => rfl

theorem need_le (h : Resized x need limit bs brk b bs' brk' b') : need ≤ b'.size := by
  cases h with
  | shrink hle => exact le_size_cut hle
  | absorb hlt habsorbs => exact le_size_cut habsorbs.2.2
  | grow hlt hstop hlimit => exact Nat.le_refl _

theorem brk_le (h : Resized x need limit bs brk b bs' brk' b') : brk ≤ brk' := by
  cases h with
  | shrink hle => exact Nat.le_refl _
  | absorb hlt habsorbs => exact Nat.le_refl _
  | grow hlt hstop hlimit =>
    rw [← hstop]
    exact Nat.add_le_add_left hlt.le _

/-- Among the allocated blocks the block alone is replaced. -/
theorem exists_live (h : Resized x need limit bs brk b bs' brk' b') (hlive : b.free = false) :
    ∃ l r, live bs = l ++ b :: r ∧ live bs' = l ++ b' :: r := by
  have hcut (c : Block) (r : List Block) (hc : c.free = false) :
      live ((cut x c need r).1 :: (cut x c need r).2) = (cut x c need r).1 :: live r := by
    rw [live_cut, hc, if_neg Bool.false_ne_true]
  cases h with
  | @shrink l r _ _ hle =>
    refine ⟨live l, live r, ?_, ?_⟩
    · rw [live_append, live_cons_of_not_free hlive]
    · rw [live_append, hcut b r hlive]
  | @absorb l r _ n _ hlt habsorbs =>
    refine ⟨live l, live r, ?_, ?_⟩
    · rw [live_append, live_cons_of_not_free hlive, live_cons_of_free habsorbs.1]
    · rw [live_append, hcut (b.absorb x n) r hlive]
  | @grow l _ _ hlt hstop hlimit =>
    refine ⟨live l, [], ?_, ?_⟩
    · rw [live_append, live_cons_of_not_free hlive]
      rfl
    · rw [live_append, live_cons_of_not_free (b := b.resize need) hlive]
      rfl

theorem apart (h : Resized x need limit bs brk b bs' brk' b') (hlive : b.free = false)
    (hbs : Apart x bs) : Apart x bs' := by
  cases h with
  | shrink hle =>
    obtain ⟨hl, hr⟩ := apart_append_cons.1 hbs
    exact apart_append_cons.2
      ⟨apart_concat (apart_left hl) (by rw [cut_free]; exact hlive), apart_cut hlive hr.tail⟩
  | absorb hlt habsorbs =>
    obtain ⟨hl, hr⟩ := apart_append_cons.1 hbs
    exact apart_append_cons.2
      ⟨apart_concat (apart_left hl) (by rw [cut_free]; exact hlive), apart_cut hlive hr.tail.tail⟩
  | grow hlt hstop hlimit => exact apart_concat (apart_left hbs) hlive

/-- The block grows into free blocks and space above the mark only. -/
theorem bytes_subset (h : Resized x need limit bs brk b bs' brk' b') :
    b'.bytes x ⊆ b.bytes x ∪ scratch x bs ∪ Set.Ico brk limit := by
  cases h with
  | @shrink l r _ _ hle =>
    rintro c ⟨hlow, hhigh⟩
    rw [cut_address] at hlow
    exact .inl (.inl ⟨hlow, Nat.lt_of_lt_of_le hhigh (stop_cut_le hle)⟩)
  | @absorb l r _ n _ hlt habsorbs =>
    rintro c ⟨hlow, hhigh⟩
    rw [cut_address] at hlow
    have hc : c ∈ (b.absorb x n).bytes x :=
      ⟨hlow, Nat.lt_of_lt_of_le hhigh (stop_cut_le habsorbs.2.2)⟩
    rw [bytes_absorb habsorbs.2.1] at hc
    rcases hc with hc | hc
    · exact .inl (.inl hc)
    · exact .inl (.inr (bytes_subset_scratch (b := n) (by simp) habsorbs.1 hc))
  | @grow l _ _ hlt hstop hlimit =>
    rintro c ⟨hlow, hhigh⟩
    by_cases hc : c < b.stop x
    · exact .inl (.inl ⟨hlow, hc⟩)
    · exact .inr ⟨hstop.symm.trans_le (Nat.not_lt.1 hc), Nat.lt_of_lt_of_le hhigh hlimit⟩

/-- No block appears outside the old blocks and the space above the mark. -/
theorem region_subset (h : Resized x need limit bs brk b bs' brk' b') :
    region x bs' ⊆ region x bs ∪ Set.Ico brk limit := by
  cases h with
  | @shrink l r _ _ hle =>
    refine Set.subset_union_of_subset_left ?_ _
    rw [region_append, region_append]
    exact Set.union_subset_union_right _ (region_cut hle).subset
  | @absorb l r _ n _ hlt habsorbs =>
    refine Set.subset_union_of_subset_left ?_ _
    have hcut := (region_cut (x := x) (r := r) habsorbs.2.2).subset
    rw [region_cons (b.absorb x n), bytes_absorb habsorbs.2.1] at hcut
    rw [region_append, region_append, region_cons b, region_cons n,
      ← Set.union_assoc (b.bytes x)]
    exact Set.union_subset_union_right _ hcut
  | @grow l _ _ hlt hstop hlimit =>
    rw [region_append, region_append]
    refine Set.union_subset (Set.subset_union_left.trans Set.subset_union_left) ?_
    rw [region_singleton]
    rintro c ⟨hlow, hhigh⟩
    by_cases hc : c < b.stop x
    · exact .inl (.inr ⟨b, List.mem_cons_self, hlow, hc⟩)
    · exact .inr ⟨hstop.symm.trans_le (Nat.not_lt.1 hc), Nat.lt_of_lt_of_le hhigh hlimit⟩

end Resized

namespace Arena

variable {a a' : Arena x} {bs bs' l r : List Block} {b b' n : Block} {need : Nat}

/-- Whether the block behind `b` can be taken in. -/
theorem Represents.yields_absorbable? (h : a.Represents (l ++ b :: r)) :
    Yields (absorbable? (b.header (front r null) (back null l)) need) a fun v a' => a' = a ∧
      ((∃ n r', r = n :: r' ∧ Absorbs x need b n ∧
          v = some (n.header (front r' null) b.address, (b.absorb x n).size)) ∨
        v = none ∧ ∀ n r', r = n :: r' → ¬ Absorbs x need b n) := by
  have hmem : b ∈ l ++ b :: r := by simp
  unfold absorbable?
  rw [yields_bind, yields_ofExcept (h.toLaid.checkedStop_eq hmem _ _), Block.header_next]
  cases r with
  | nil =>
    rw [if_pos (.inl (front_nil null)), yields_pure]
    exact ⟨rfl, .inr ⟨rfl, fun n r' heq => by cases heq⟩⟩
  | cons n r =>
    have hmemn : n ∈ l ++ b :: n :: r := by simp
    rw [front_cons]
    by_cases hstop : n.address = b.stop x
    · have hsum := h.toLaid.size_absorb_eq hmemn hstop
      have hskip : ¬ (n.address = null ∨ n.address ≠ b.stop x) := by
        rintro (hnull | hne)
        · exact h.toLaid.address_ne hmemn hnull
        · exact hne hstop
      rw [if_neg hskip, yields_bind, AllocM.header, yields_inspect h.around.header_next_eq,
        Block.header_size, Block.header_size, yields_bind, yields_ofExcept hsum, Block.header_free]
      by_cases habsorbs : n.free = true ∧ need ≤ (b.absorb x n).size
      · rw [if_pos habsorbs, yields_pure]
        exact ⟨rfl, .inl ⟨n, r, rfl, ⟨habsorbs.1, hstop, habsorbs.2⟩, rfl⟩⟩
      · rw [if_neg habsorbs, yields_pure]
        refine ⟨rfl, .inr ⟨rfl, ?_⟩⟩
        rintro _ _ heq ⟨hfree, -, hle⟩
        cases heq
        exact habsorbs ⟨hfree, hle⟩
    · rw [if_pos (.inr hstop), yields_pure]
      refine ⟨rfl, .inr ⟨rfl, ?_⟩⟩
      rintro _ _ heq ⟨-, hnext, -⟩
      cases heq
      exact hstop hnext

/-- Filling what an allocation gained changes no header. -/
theorem Represents.yields_zeroGrown (h : a.Represents bs) (hb : b ∈ live bs) {old : Nat}
    (hneed : need ≤ b.size) :
    Yields (zeroGrown (b.payload x) old need) a fun _ a' => a'.Represents bs ∧ a'.heap = a.heap ∧
      Evolves (Set.Ico (b.payload x + old) (b.payload x + need)) a a' ∧
      (a.heap.alwaysCalloc = true →
        ∀ c ∈ Set.Ico (b.payload x + old) (b.payload x + need), a'.memory.loadByte c = 0) := by
  unfold zeroGrown
  rw [yields_bind, yields_heap]
  by_cases hgrown : a.heap.alwaysCalloc = true ∧ old < need
  · have hmem := (mem_live.1 hb).1
    have hstop : b.payload x + need ≤ b.stop x := Nat.add_le_add_left hneed _
    have hspace : b.payload x + old + (need - old) ≤ x.space := by
      have := h.toLaid.stop_le_space hmem
      omega
    have hsum : checkedSum (b.payload x) old = .ok (b.payload x + old) := by
      have := h.toLaid.stop_lt_wordLimit hmem
      exact checkedSum_of_lt (by omega)
    have heq : b.payload x + old + (need - old) = b.payload x + need := by omega
    have hevolves : Evolves (Set.Ico (b.payload x + old) (b.payload x + need)) a
        { a with memory := a.memory.zero (b.payload x + old) (need - old) } :=
      ⟨rfl, rfl, rfl, Memory.aligned_zero _ _ _, fun c hc hout =>
        Memory.loadByte_zero_of_outside _ hspace hc (by rw [heq]; exact hout)⟩
    rw [if_pos hgrown, yields_bind, yields_ofExcept hsum, yields_modifyMemory]
    refine ⟨h.of_evolves hevolves (fun c hc hin => ?_) rfl rfl rfl, rfl, hevolves, ?_⟩
    · -- What was gained is payload, so no header is filled.
      have hpayload : c ∈ b.payloadBytes x :=
        ⟨(Nat.le_add_right _ _).trans hin.1, Nat.lt_of_lt_of_le hin.2 hstop⟩
      exact h.placed.not_mem_scratch hb hpayload (headerRegion_subset_scratch bs hc)
    · intro _ c hc
      exact Memory.loadByte_zero_of_inside _ hspace hc.1 (by rw [heq]; exact hc.2)
  · rw [if_neg hgrown, yields_pure]
    refine ⟨h, rfl, Evolves.refl _ a, fun hpolicy c hc => ?_⟩
    have hlow := hc.1
    have hhigh := hc.2
    exact absurd ⟨hpolicy, by omega⟩ hgrown

/-- What resizing the allocated block `b` to `size` bytes leads to: the block
changes in place, or its contents move, or null and nothing changed. -/
inductive Reallocated (size : Nat) (a : Arena x) (bs : List Block) (b : Block) :
    Nat → Arena x → Prop
  | inPlace {need : Nat} {a' : Arena x} {bs' : List Block} {b' : Block} (hsize : size ≠ 0)
      (hround : a.heap.roundSize? size = some need)
      (hresized : Resized x need a.heap.limit bs a.heap.brk b bs' a'.heap.brk b')
      (hconsistent : a'.Consistent bs')
      (hevolves : Evolves (resizable x need a.heap.limit bs a.heap.brk b) a a')
      (hzero : a.heap.alwaysCalloc = true →
        ∀ c ∈ Set.Ico (b.stop x) (b.payload x + need), a'.memory.loadByte c = 0) :
      Reallocated size a bs b (b.payload x) a'
  | moved {need : Nat} {a' : Arena x} {l r : List Block} {b' : Block} (hsize : size ≠ 0)
      (hround : a.heap.roundSize? size = some need)
      (hnot : ∀ bs' brk' c, ¬ Resized x need a.heap.limit bs a.heap.brk b bs' brk' c)
      (hallocated : Allocated x need a.heap.limit bs a.heap.brk (l ++ b :: r) a'.heap.brk b')
      (hconsistent : a'.Consistent (released x l b r))
      (hevolves : Evolves (scratch x bs ∪ Set.Ico a.heap.brk a.heap.limit) a a')
      (hcopied : ∀ i < b.size,
        a'.memory.loadByte (b'.payload x + i) = a.memory.loadByte (b.payload x + i))
      (hzero : a.heap.alwaysCalloc = true →
        ∀ c ∈ Set.Ico (b'.payload x + b.size) (b'.stop x), a'.memory.loadByte c = 0) :
      Reallocated size a bs b (b'.payload x) a'
  | refused (hnone : ∀ need, size ≠ 0 → a.heap.roundSize? size = some need →
      (∀ bs' brk' c, ¬ Resized x need a.heap.limit bs a.heap.brk b bs' brk' c) ∧
        ∀ bs' brk' c, ¬ Allocated x need a.heap.limit bs a.heap.brk bs' brk' c) :
      Reallocated size a bs b null a

theorem Consistent.of_resized {limit brk brk' : Nat} (h : a.Consistent bs)
    (hlive : b.free = false) (hresized : Resized x need limit bs brk b bs' brk' b')
    (hrep : a'.Represents bs') (hactive : a'.heap.active = a.heap.active) : a'.Consistent bs' := by
  obtain ⟨u, v, hu, hv⟩ := hresized.exists_live hlive
  refine ⟨hrep, hresized.apart hlive h.apart, ?_⟩
  rw [hactive, h.active_eq, hu, hv, List.length_append, List.length_append]
  rfl

/-- A block that was made over in place is filled and answered with. -/
theorem Consistent.yields_inPlace {size : Nat} (h : a.Consistent bs) (hlive : b.free = false)
    (hsize : size ≠ 0) (hround : a.heap.roundSize? size = some need)
    (hresized : Resized x need a.heap.limit bs a.heap.brk b bs' a'.heap.brk b')
    (hrep : a'.Represents bs') (hactive : a'.heap.active = a.heap.active)
    (hevolves : Evolves (resizable x need a.heap.limit bs a.heap.brk b) a a') :
    Yields (zeroGrown (b.payload x) b.size need >>= fun _ => pure (b.payload x)) a'
      (Reallocated size a bs b) := by
  have hb' : b' ∈ live bs' := by
    obtain ⟨u, v, -, hv⟩ := hresized.exists_live hlive
    rw [hv]
    simp
  have hpayload : b'.payload x = b.payload x := congrArg (· + headerSize x) hresized.address_eq
  have hgained : Set.Ico (b.payload x + b.size) (b.payload x + need) ⊆
      resizable x need a.heap.limit bs a.heap.brk b := by
    rintro c ⟨hlow, hhigh⟩
    have hc : c ∈ b'.bytes x := by
      have hle : b'.payload x + need ≤ b'.stop x := Nat.add_le_add_left hresized.need_le _
      have haddress := b'.address_lt_payload x
      have hstop := Nat.le_add_right (b.payload x) b.size
      exact ⟨by omega, by omega⟩
    -- It was no part of `b`, so it was free or above the mark.
    rcases hresized.bytes_subset hc with (hc | hc) | hc
    · exact absurd hc.2 (Nat.not_lt.2 hlow)
    · exact .inl (.inl hc)
    · exact .inr hc
  rw [← hpayload]
  refine (hrep.yields_zeroGrown hb' hresized.need_le).bind ?_
  rintro - a'' ⟨hrep', hheap, hevolves', hzero⟩
  rw [yields_pure, hpayload]
  rw [hpayload] at hevolves' hzero
  rw [← hheap] at hresized hactive
  refine .inPlace hsize hround hresized (h.of_resized hlive hresized hrep' hactive)
    (hevolves.trans (hevolves'.mono hgained)) fun hpolicy => ?_
  exact hzero (hevolves.policy_eq.trans hpolicy)

/-- Copying the contents of an allocation to a larger one changes no block. -/
theorem Consistent.copied (h : a.Consistent bs) (hb : b ∈ live bs) (hb' : b' ∈ live bs)
    (hle : b.size ≤ b'.size) :
    Consistent { a with memory := a.memory.copy (b'.payload x) (b.payload x) b.size } bs ∧
      Evolves (Set.Ico (b'.payload x) (b'.payload x + b.size)) a
        { a with memory := a.memory.copy (b'.payload x) (b.payload x) b.size } ∧
      ∀ i < b.size, (a.memory.copy (b'.payload x) (b.payload x) b.size).loadByte
        (b'.payload x + i) = a.memory.loadByte (b.payload x + i) := by
  have hsource := h.toLaid.stop_le_space (mem_live.1 hb).1
  have hstop : b'.payload x + b.size ≤ b'.stop x := Nat.add_le_add_left hle _
  have htarget := hstop.trans (h.toLaid.stop_le_space (mem_live.1 hb').1)
  have hevolves : Evolves (Set.Ico (b'.payload x) (b'.payload x + b.size)) a
      { a with memory := a.memory.copy (b'.payload x) (b.payload x) b.size } :=
    ⟨rfl, rfl, rfl, Memory.aligned_copy _ _ _ _, fun c hc hout =>
      Memory.loadByte_copy_of_outside _ htarget hc hout⟩
  have hrep := h.of_evolves hevolves (fun c hc hin => ?_) rfl rfl rfl
  · refine ⟨⟨hrep, h.apart, h.active_eq⟩, hevolves, fun i hi => ?_⟩
    exact Memory.loadByte_copy_of_le_space _ htarget hsource hi
  · have hpayload : c ∈ b'.payloadBytes x := ⟨hin.1, Nat.lt_of_lt_of_le hin.2 hstop⟩
    exact h.placed.not_mem_scratch hb' hpayload (headerRegion_subset_scratch bs hc)

/-- Contents are copied to the new allocation `b'` and the old one is released. -/
theorem Consistent.yields_moveTo {size : Nat} (h : a.Consistent (l ++ b :: r))
    (hlive : b.free = false) (hsize : size ≠ 0) (hround : a.heap.roundSize? size = some need)
    (hlt : b.size < need)
    (hnot : ∀ bs' brk' c,
      ¬ Resized x need a.heap.limit (l ++ b :: r) a.heap.brk b bs' brk' c)
    (hallocated : Allocated x need a.heap.limit (l ++ b :: r) a.heap.brk bs' a'.heap.brk b')
    (hconsistent : a'.Consistent bs')
    (hevolves : Evolves (scratch x (l ++ b :: r) ∪ Set.Ico a.heap.brk a.heap.limit) a a')
    (hzero : a.heap.alwaysCalloc = true → ∀ c ∈ b'.payloadBytes x, a'.memory.loadByte c = 0) :
    Yields (modifyMemory (fun m => m.copy (b'.payload x) (b.payload x) b.size) >>= fun _ =>
        free (b.payload x) >>= fun _ => pure (b'.payload x)) a'
      (Reallocated size a (l ++ b :: r) b) := by
  have hold : b ∈ live (l ++ b :: r) := mem_live.2 ⟨by simp, hlive⟩
  have hb : b ∈ live bs' := hallocated.live_perm.mem_iff.2 (List.mem_cons_of_mem _ hold)
  have hb' : b' ∈ live bs' := mem_live.2 ⟨hallocated.mem, hallocated.free_eq⟩
  have hfits := hlt.le.trans hallocated.need_le
  obtain ⟨hconsistent₂, hevolves₂, hcopied⟩ := hconsistent.copied hb hb' hfits
  obtain ⟨l', r', rfl⟩ := List.append_of_mem (mem_live.1 hb).1
  rw [yields_bind, yields_modifyMemory]
  refine (hconsistent₂.yields_free hlive).bind ?_
  rintro - a₃ ⟨hconsistent₃, hbrk, hevolves₃⟩
  rw [yields_pure]
  -- The copy writes the new payload, releasing the old block writes headers only.
  have hheaders (c : Nat) (hc : c ∈ b'.payloadBytes x) :
      c ∉ headerRegion x (l' ++ b :: r') := fun hin =>
    hconsistent.placed.not_mem_scratch hb' hc (headerRegion_subset_scratch _ hin)
  have hstop := h.toLaid.stop_le_space (mem_live.1 hold).1
  have hstop' := hconsistent.toLaid.stop_le_space (mem_live.1 hb').1
  have hallocated₃ := hallocated
  rw [← show a₃.heap.brk = a'.heap.brk from hbrk] at hallocated₃
  refine .moved hsize hround hnot hallocated₃ hconsistent₃ ?_ (fun i hi => ?_) fun hpolicy c hc => ?_
  · refine (hevolves.trans (hevolves₂.mono ?_)).trans (hevolves₃.mono hallocated.headerRegion_subset)
    refine Set.Subset.trans ?_ hallocated.bytes_subset
    exact Set.Ico_subset_Ico (b'.address_lt_payload x).le (Nat.add_le_add_left hfits _)
  · -- The old payload reached the copy unchanged, since the allocation spared it.
    have hi' : b'.payload x + i < b'.stop x :=
      Nat.add_lt_add_left (Nat.lt_of_lt_of_le hi hfits) _
    have hi'' : b.payload x + i < b.stop x := Nat.add_lt_add_left hi _
    rw [hevolves₃.loadByte_eq _ (by omega) (hheaders _ ⟨Nat.le_add_right _ _, hi'⟩)]
    refine (hcopied i hi).trans (hevolves.loadByte_eq _ (by omega) ?_)
    exact h.placed.not_mem_scratch_union hold ⟨Nat.le_add_right _ _, hi''⟩
  · -- Behind the copied bytes the new payload is as the allocation filled it.
    have hlow := hc.1
    have hhigh := hc.2
    have hpayload : c ∈ b'.payloadBytes x := ⟨(Nat.le_add_right _ _).trans hlow, hhigh⟩
    rw [hevolves₃.loadByte_eq c (by omega) (hheaders c hpayload),
      hevolves₂.loadByte_eq c (by omega) fun hin => absurd hin.2 (Nat.not_lt.2 hlow)]
    exact hzero hpolicy c hpayload

/-- A request that cannot be met in place moves the contents or changes nothing. -/
theorem Consistent.yields_move {size : Nat} (h : a.Consistent (l ++ b :: r))
    (hlive : b.free = false) (hsize : size ≠ 0) (hround : a.heap.roundSize? size = some need)
    (hlt : b.size < need)
    (hnot : ∀ bs' brk' c,
      ¬ Resized x need a.heap.limit (l ++ b :: r) a.heap.brk b bs' brk' c) :
    Yields (move (b.header (front r null) (back null l)) (b.payload x) need) a
      (Reallocated size a (l ++ b :: r) b) := by
  obtain ⟨hpos, -, -, -⟩ := Heap.roundSize?_spec hsize hround
  -- The allocation rounds again, which changes nothing.
  have hround' : a.heap.roundSize? need = some need := h.window.roundSize?_eq_self hround
  unfold move
  rw [yields_bind, yields_heap]
  refine (h.yields_allocate need a.heap.alwaysCalloc).bind ?_
  intro q a' hanswered
  cases hanswered with
  | refused hnone =>
    rw [if_pos rfl, yields_pure]
    refine .refused fun need' _ hround'' => ?_
    rw [hround] at hround''
    cases hround''
    exact ⟨hnot, hnone need hpos.ne' hround'⟩
  | @granted need' _ bs' b' hsize' hround₁ hallocated hconsistent hevolves hzero =>
    rw [hround'] at hround₁
    cases hround₁
    rw [if_neg (b'.payload_ne_null x), Block.header_size, min_eq_left hlt.le]
    exact h.yields_moveTo hlive hsize hround hlt hnot hallocated hconsistent hevolves hzero

/-- The block takes in the free one behind it and gives back what is not needed. -/
theorem Represents.yields_takeIn (h : a.Represents (l ++ b :: n :: r)) (hpos : 0 < need)
    (hneed : x.bytes ∣ need) (hlt : b.size < need) (habsorbs : Absorbs x need b n) :
    Yields (unlink (n.header (front r null) b.address) >>= fun _ =>
        split ((b.absorb x n).header (front r null) (back null l)) need) a fun _ a' =>
      a'.Represents (l ++ (cut x (b.absorb x n) need r).1 :: (cut x (b.absorb x n) need r).2) ∧
        Edited (scratch x (l ++ b :: n :: r)) a a' := by
  have hheaders := headerRegion_subset_scratch (x := x) (l ++ b :: n :: r)
  have hb : b.headerBytes x ⊆ scratch x (l ++ b :: n :: r) :=
    (headerBytes_subset_headerRegion (by simp)).trans hheaders
  have hr : headerRegion x r ⊆ scratch x (l ++ b :: n :: r) :=
    (headerRegion_mono fun c hc => by simp [hc]).trans hheaders
  -- What is given back lies in the block that was free.
  have hspared : Set.Ico ((b.absorb x n).payload x + need) ((b.absorb x n).stop x) ⊆
      scratch x (l ++ b :: n :: r) := by
    have hn : n.bytes x ⊆ scratch x (l ++ b :: n :: r) :=
      bytes_subset_scratch (by simp) habsorbs.1
    refine Set.Subset.trans ?_ hn
    rw [stop_absorb habsorbs.2.1]
    refine Set.Ico_subset_Ico_left ?_
    rw [habsorbs.2.1]
    exact Nat.add_le_add_left hlt.le _
  have hplaced := placed_absorb h.placed habsorbs.2.1
  refine (h.around.yields_unlink (d := b.absorb x n) rfl hplaced hb hr).bind ?_
  rintro - a₁ ⟨haround, hedited⟩
  refine (haround.yields_split hpos hneed habsorbs.2.2 hb hspared hr).imp ?_
  rintro - a₂ ⟨-, hrep, hedited'⟩
  exact ⟨hrep, hedited.trans hedited'⟩

theorem Consistent.yields_grow {size : Nat} (h : a.Consistent (l ++ b :: r))
    (hlive : b.free = false) (hsize : size ≠ 0) (hround : a.heap.roundSize? size = some need)
    (hlt : b.size < need) :
    Yields (grow (b.header (front r null) (back null l)) (b.payload x) need) a
      (Reallocated size a (l ++ b :: r) b) := by
  obtain ⟨hpos, hneed, -, -⟩ := Heap.roundSize?_spec hsize hround
  have hmem : b ∈ l ++ b :: r := by simp
  unfold grow
  refine h.yields_absorbable?.bind ?_
  rintro v a₁ ⟨rfl, ⟨n, r', rfl, habsorbs, rfl⟩ | ⟨rfl, hnone⟩⟩
  · -- The next block is free and large enough.
    dsimp only
    rw [← bind_assoc]
    refine (h.yields_takeIn hpos hneed hlt habsorbs).bind ?_
    rintro - a₂ ⟨hrep, hedited⟩
    have hresized : Resized x need a₁.heap.limit (l ++ b :: n :: r') a₁.heap.brk b
        (l ++ (cut x (b.absorb x n) need r').1 :: (cut x (b.absorb x n) need r').2) a₂.heap.brk
        (cut x (b.absorb x n) need r').1 := by
      rw [hedited.brk_eq]
      exact .absorb hlt habsorbs
    exact h.yields_inPlace hlive hsize hround hresized hrep hedited.active_eq
      (hedited.toEvolves.mono (scratch_subset_resizable _ _ _ _ _))
  · rw [yields_bind, yields_heap, yields_bind, yields_ofExcept (h.toLaid.checkedStop_eq hmem _ _),
      Block.header_address]
    by_cases htail : b.address = a₁.heap.tail ∧ b.stop x = a₁.heap.brk ∧
        b.payload x + need ≤ a₁.heap.limit
    · -- The block is the last one and there is room above the mark.
      have hlast : r = [] := h.eq_nil_of_stop_eq htail.2.1
      subst hlast
      rw [if_pos htail, ← bind_assoc]
      refine (h.yields_raiseLast (b := b.resize need) hpos hneed htail.2.2 rfl rfl).bind ?_
      rintro - a₂ ⟨hrep, hbrk, hactive, hevolves⟩
      have hresized : Resized x need a₁.heap.limit (l ++ [b]) a₁.heap.brk b (l ++ [b.resize need])
          a₂.heap.brk (b.resize need) := by
        rw [hbrk]
        exact .grow hlt htail.2.1 htail.2.2
      exact h.yields_inPlace hlive hsize hround hresized hrep hactive
        (hevolves.mono (scratch_subset_resizable _ _ _ _ _))
    · rw [if_neg htail]
      refine h.yields_move hlive hsize hround hlt ?_
      -- Each way to resize in place is one that was just ruled out.
      intro bs' brk' c hresized
      generalize heq : l ++ b :: r = bs at hresized
      cases hresized with
      | shrink hle => exact absurd hle (Nat.not_le.2 hlt)
      | @absorb l' r' _ n _ _ habsorbs =>
        exact hnone n r' (h.placed.eq_of_append_cons_eq heq).2 habsorbs
      | @grow l' _ _ _ hstop hlimit =>
        obtain ⟨-, rfl⟩ := h.placed.eq_of_append_cons_eq heq
        exact htail ⟨h.tail_eq_last.symm, hstop, hlimit⟩

theorem Consistent.yields_realloc (h : a.Consistent (l ++ b :: r)) (hlive : b.free = false)
    (size : Nat) :
    Yields (realloc (b.payload x) size) a (Reallocated size a (l ++ b :: r) b) := by
  have hne : b.payload x ≠ null := b.payload_ne_null x
  have hmem : b ∈ l ++ b :: r := by simp
  unfold realloc
  rw [if_neg hne, yields_bind, yields_inspect (h.allocated_of_mem hlive), yields_bind, yields_heap]
  by_cases hsize : size = 0
  · rw [if_pos hsize, yields_pure]
    exact .refused fun _ hsize' => absurd hsize hsize'
  rw [if_neg hsize]
  cases hround : a.heap.roundSize? size with
  | none =>
    dsimp only
    rw [yields_pure]
    refine .refused fun need _ hsome => ?_
    rw [hround] at hsome
    cases hsome
  | some need =>
    obtain ⟨hpos, hneed, -, -⟩ := Heap.roundSize?_spec hsize hround
    dsimp only
    rw [Block.header_size]
    by_cases hle : need ≤ b.size
    · have hheaders := (headerRegion_subset_scratch (x := x) (l ++ b :: r)).trans
        (scratch_subset_resizable need a.heap.limit (l ++ b :: r) a.heap.brk b)
      rw [if_pos hle]
      refine (h.around.yields_split (R := resizable x need a.heap.limit (l ++ b :: r) a.heap.brk b)
        hpos hneed hle ?_ ?_ ?_).bind ?_
      · exact (headerBytes_subset_headerRegion hmem).trans hheaders
      · exact Set.subset_union_right.trans Set.subset_union_left
      · exact (headerRegion_mono fun c hc => by simp [hc]).trans hheaders
      rintro - a' ⟨-, hrep, hedited⟩
      have hresized : Resized x need a.heap.limit (l ++ b :: r) a.heap.brk b
          (l ++ (cut x b need r).1 :: (cut x b need r).2) a'.heap.brk (cut x b need r).1 := by
        rw [hedited.brk_eq]
        exact .shrink hle
      rw [yields_pure]
      -- A block that is cut down gains no byte that would have to be filled.
      refine .inPlace hsize hround hresized (h.of_resized hlive hresized hrep hedited.active_eq)
        hedited.toEvolves fun _ c hc => ?_
      have hlow := hc.1
      have hhigh := hc.2
      unfold Block.stop at hlow
      exact absurd hle (by omega)
    · rw [if_neg hle]
      exact h.yields_grow hlive hsize hround (Nat.not_le.1 hle)

/-- Resizing null allocates. -/
theorem realloc_null (size : Nat) : (realloc null size : AllocM x Nat) = malloc size :=
  rfl

/-- A pointer that is not the payload of an allocated block is refused. -/
theorem Represents.realloc_eq_error (h : a.Represents bs) {pointer : Nat} (hne : pointer ≠ null)
    (hnone : ∀ b ∈ live bs, b.payload x ≠ pointer) (size : Nat) :
    realloc pointer size a = .error (.invalidPointer pointer) a := by
  unfold realloc
  rw [if_neg hne]
  exact AllocM.bind_eq_error (h.inspect_allocated_eq_error hnone) _

end Arena

end Hart
