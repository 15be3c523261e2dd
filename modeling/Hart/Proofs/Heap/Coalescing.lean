/-
Lists of blocks with their free neighbours merged.

Which blocks a release merges depends on what was released before it.  What it leaves does not:
`coalesce` merges all free blocks of a list that are adjacent, and releasing a block is the same
as turning it free and coalescing the list.

* `apart_coalesce`, `coalesce_of_apart` — no adjacent free blocks are left, and a list that has
  none is as it was;
* `released_eq_coalesce` — releasing a block is coalescing;
* `coalesce_append_joined` — merging two blocks first makes no difference;
* `coalesce_map_coalesce` — neither does coalescing before more blocks turn free;
* `spans_coalesce_map` — once all blocks are free, there is one block for each stretch of them.

Design notes: `coalesce` is a fold from the right, and each step of it is the `joined` of the
allocator.  What makes the order irrelevant is that three blocks in a row merge to the same
block from either side (`joined_joined`).
-/
import Mathlib.Data.List.SplitBy
import Hart.Proofs.Heap.Release

namespace Hart

variable {x : Xlen} {l r bs : List Block} {b n : Block}

/-- The list with all adjacent free blocks merged. -/
def coalesce (x : Xlen) (bs : List Block) : List Block := bs.foldr (joined x) []

@[simp] theorem coalesce_cons (b : Block) (r : List Block) :
    coalesce x (b :: r) = joined x b (coalesce x r) := rfl

theorem joined_of_not_mergeable (h : ¬ Mergeable x b n) : joined x b (n :: r) = b :: n :: r := by
  rw [joined, joinNext_of_not_mergeable h]

theorem joined_of_mergeable (h : Mergeable x b n) : joined x b (n :: r) = b.absorb x n :: r := by
  rw [joined, joinNext_of_mergeable h]

theorem absorb_absorb (b n m : Block) :
    b.absorb x (n.absorb x m) = (b.absorb x n).absorb x m := by
  unfold Block.absorb
  simp only [Block.mk.injEq, true_and, and_true]
  omega

/-- Three blocks in a row merge to the same block from either side. -/
theorem joined_joined (h : Mergeable x b n) (r : List Block) :
    joined x b (joined x n r) = joined x (b.absorb x n) r := by
  cases r with
  | nil => exact joined_of_mergeable h
  | cons m r =>
    have hiff : Mergeable x (b.absorb x n) m ↔ Mergeable x n m := by
      unfold Mergeable
      rw [stop_absorb h.2.2, h.2.1]
      exact and_congr_left fun _ => iff_of_true h.1 rfl
    by_cases hm : Mergeable x n m
    · have hbn : Mergeable x b (n.absorb x m) := ⟨h.1, h.2.1, h.2.2⟩
      rw [joined_of_mergeable hm, joined_of_mergeable hbn, joined_of_mergeable (hiff.2 hm),
        absorb_absorb]
    · rw [joined_of_not_mergeable hm, joined_of_mergeable h,
        joined_of_not_mergeable (mt hiff.1 hm)]

theorem joined_of_apart (h : Apart x (b :: r)) : joined x b r = b :: r := by
  cases r with
  | nil => rfl
  | cons n r => exact joined_of_not_mergeable (apart_cons_cons.1 h).1

/-- Where no free blocks are adjacent there is nothing to merge. -/
theorem coalesce_of_apart (h : Apart x bs) : coalesce x bs = bs := by
  induction bs with
  | nil => rfl
  | cons b r ih => rw [coalesce_cons, ih h.tail, joined_of_apart h]

theorem apart_coalesce (bs : List Block) : Apart x (coalesce x bs) := by
  induction bs with
  | nil => exact List.isChain_nil
  | cons b r ih => exact apart_joined ih

theorem coalesce_append (l r : List Block) :
    coalesce x (l ++ r) = l.foldr (joined x) (coalesce x r) :=
  List.foldr_append

theorem coalesce_append_congr (l : List Block) {r r' : List Block}
    (h : coalesce x r = coalesce x r') : coalesce x (l ++ r) = coalesce x (l ++ r') := by
  rw [coalesce_append, coalesce_append, h]

theorem coalesce_joined (b : Block) (r : List Block) :
    coalesce x (joined x b r) = coalesce x (b :: r) := by
  cases r with
  | nil => rfl
  | cons n r =>
    by_cases h : Mergeable x b n
    · rw [joined_of_mergeable h, coalesce_cons, coalesce_cons, coalesce_cons, joined_joined h]
    · rw [joined_of_not_mergeable h]

/-- Merging two blocks of the list first makes no difference. -/
theorem coalesce_append_joined (l : List Block) (b : Block) (r : List Block) :
    coalesce x (l ++ joined x b r) = coalesce x (l ++ b :: r) :=
  coalesce_append_congr l (coalesce_joined b r)

theorem coalesce_joinPrev (l : List Block) (b : Block) (r : List Block) :
    coalesce x (joinPrev x l b r) = coalesce x (l ++ b :: r) := by
  rcases List.eq_nil_or_concat l with rfl | ⟨l, p, rfl⟩
  · rfl
  · rw [List.concat_eq_append, joinPrev_concat, coalesce_append_joined, List.append_assoc,
      List.singleton_append]

/-! ### Releasing -/

@[simp] theorem Block.free_release (b : Block) : b.release.free = true := rfl

theorem Block.release_of_free (h : b.free = true) : b.release = b := by
  cases b
  cases h
  rfl

/-- Releasing a block is to turn it free and to coalesce. -/
theorem released_eq_coalesce (h : Apart x (l ++ b :: r)) :
    released x l b r = coalesce x (l ++ b.release :: r) := by
  have hjoined : coalesce x (l ++ joined x b.release r) = coalesce x (l ++ b.release :: r) :=
    coalesce_append_joined l b.release r
  rw [← coalesce_of_apart (apart_released h), released, coalesce_joinPrev]
  exact hjoined

/-- The block, free if its payload is one of the pointers. -/
def Block.releaseIn (x : Xlen) (ps : List Nat) (b : Block) : Block :=
  if b.payload x ∈ ps then b.release else b

theorem Block.releaseIn_of_free (h : b.free = true) (ps : List Nat) : b.releaseIn x ps = b := by
  unfold releaseIn
  split
  · exact release_of_free h
  · rfl

@[simp] theorem Block.address_releaseIn (ps : List Nat) (b : Block) :
    (b.releaseIn x ps).address = b.address := by
  unfold releaseIn
  split <;> rfl

@[simp] theorem Block.stop_releaseIn (ps : List Nat) (b : Block) :
    (b.releaseIn x ps).stop x = b.stop x := by
  unfold releaseIn
  split <;> rfl

@[simp] theorem map_releaseIn_nil (bs : List Block) : bs.map (Block.releaseIn x []) = bs := by
  refine (List.map_congr_left fun b _ => ?_).trans (List.map_id' bs)
  exact if_neg List.not_mem_nil

theorem Block.releaseIn_cons (p : Nat) (ps : List Nat) (b : Block) :
    (b.releaseIn x [p]).releaseIn x ps = b.releaseIn x (p :: ps) := by
  by_cases hp : b.payload x = p
  · have hfirst : b.releaseIn x [p] = b.release := if_pos (by simp [hp])
    have hboth : b.releaseIn x (p :: ps) = b.release := if_pos (by simp [hp])
    rw [hfirst, hboth, releaseIn_of_free b.free_release]
  · have hfirst : b.releaseIn x [p] = b := if_neg (by simp [hp])
    unfold releaseIn at *
    rw [hfirst]
    simp only [List.mem_cons, hp, false_or]

theorem Block.releaseIn_perm {ps qs : List Nat} (h : qs.Perm ps) :
    Block.releaseIn x qs = Block.releaseIn x ps := by
  funext b
  unfold releaseIn
  simp only [h.mem_iff]

/-- Only the block that a pointer belongs to is released. -/
theorem Placed.map_releaseIn {low high : Nat} (h : Placed x low (l ++ b :: r) high) :
    (l ++ b :: r).map (Block.releaseIn x [b.payload x]) = l ++ b.release :: r := by
  obtain ⟨hl, -, hr⟩ := placed_append_cons.1 h
  have hlt := b.address_lt_stop x
  have hother (c : Block) (hne : c.address ≠ b.address) : c.releaseIn x [b.payload x] = c := by
    refine if_neg fun hin => hne ?_
    exact Nat.add_right_cancel (List.mem_singleton.1 hin)
  have hleft : l.map (Block.releaseIn x [b.payload x]) = l := by
    refine (List.map_congr_left fun c hc => hother c ?_).trans (List.map_id' l)
    have hstop := (hl.of_mem hc).2.2
    have hlt' := c.address_lt_stop x
    omega
  have hright : r.map (Block.releaseIn x [b.payload x]) = r := by
    refine (List.map_congr_left fun c hc => hother c ?_).trans (List.map_id' r)
    have hstop := (hr.of_mem hc).1
    omega
  rw [List.map_append, List.map_cons, hleft, hright]
  exact congrArg (l ++ · :: r) (if_pos (List.mem_singleton.2 rfl))

theorem coalesce_map_joined (ps : List Nat) (b : Block) (r : List Block) :
    coalesce x ((joined x b r).map (Block.releaseIn x ps)) =
      coalesce x ((b :: r).map (Block.releaseIn x ps)) := by
  cases r with
  | nil => rfl
  | cons n r =>
    by_cases h : Mergeable x b n
    · -- Blocks that merge are free already, before and after.
      have hmerged : (b.absorb x n).free = true := h.1
      have habsorb := Block.releaseIn_of_free (x := x) hmerged ps
      rw [joined_of_mergeable h, List.map_cons, habsorb, List.map_cons, List.map_cons,
        Block.releaseIn_of_free h.1, Block.releaseIn_of_free h.2.1, coalesce_cons, coalesce_cons,
        coalesce_cons, joined_joined h]
    · rw [joined_of_not_mergeable h]

/-- Coalescing before more blocks turn free makes no difference. -/
theorem coalesce_map_coalesce (ps : List Nat) (bs : List Block) :
    coalesce x ((coalesce x bs).map (Block.releaseIn x ps)) =
      coalesce x (bs.map (Block.releaseIn x ps)) := by
  induction bs with
  | nil => rfl
  | cons b r ih =>
    rw [coalesce_cons, coalesce_map_joined, List.map_cons, coalesce_cons, ih, List.map_cons,
      coalesce_cons]

/-! ### Stretches without gaps -/

/-- The second block starts where the first stops. -/
def Adjoins (x : Xlen) (b c : Block) : Bool := c.address = b.stop x

/-- The longest stretches of blocks without gaps between them. -/
def stretches (x : Xlen) (bs : List Block) : List (List Block) := bs.splitBy (Adjoins x)

/-- The block is a free one from the start of the stretch to its end. -/
structure Spans (x : Xlen) (s : List Block) (b : Block) : Prop where
  free_eq : b.free = true
  address_eq : s.head?.map Block.address = some b.address
  stop_eq : s.getLast?.map (Block.stop x) = some (b.stop x)

theorem head?_coalesce (bs : List Block) :
    (coalesce x bs).head?.map Block.address = bs.head?.map Block.address := by
  cases bs with
  | nil => rfl
  | cons b r => simp [joined]

/-- A stretch of free blocks becomes one, whatever follows behind a gap. -/
theorem exists_spans_append {s : List Block} (hne : s ≠ []) (hfree : ∀ b ∈ s, b.free = true)
    (hs : s.IsChain fun b c => Adjoins x b c)
    (hr : ∀ b ∈ s.getLast?, ∀ c ∈ r.head?, Adjoins x b c = false) :
    ∃ b, Spans x s b ∧ coalesce x (s ++ r) = b :: coalesce x r := by
  induction s with
  | nil => exact absurd rfl hne
  | cons b s ih =>
    have hb : b.free = true := hfree b List.mem_cons_self
    cases s with
    | nil =>
      refine ⟨b, ⟨hb, rfl, rfl⟩, ?_⟩
      rw [List.singleton_append, coalesce_cons]
      cases hrest : coalesce x r with
      | nil => rfl
      | cons d t =>
        have hhead := head?_coalesce (x := x) r
        rw [hrest] at hhead
        obtain ⟨c, hc, haddress⟩ := Option.map_eq_some_iff.1 hhead.symm
        refine joined_of_not_mergeable fun hm => ?_
        have hgap := hr b rfl c hc
        rw [Adjoins, haddress, hm.2.2] at hgap
        simp at hgap
    | cons c s =>
      obtain ⟨hbc, hs⟩ := List.isChain_cons_cons.1 hs
      obtain ⟨d, hd, heq⟩ := ih (List.cons_ne_nil c s)
        (fun e he => hfree e (List.mem_cons_of_mem b he)) hs fun e he => hr e (by simpa using he)
      have haddress : d.address = b.stop x := by
        have hstart : c.address = d.address := Option.some.inj hd.address_eq
        rw [← hstart]
        exact of_decide_eq_true hbc
      refine ⟨b.absorb x d, ⟨hb, rfl, ?_⟩, ?_⟩
      · rw [stop_absorb haddress, ← hd.stop_eq]
        rfl
      · rw [List.cons_append, coalesce_cons, heq, joined_of_mergeable ⟨hb, hd.free_eq, haddress⟩]

theorem spans_coalesce_flatten (ss : List (List Block)) (hfree : ∀ b ∈ ss.flatten, b.free = true)
    (hne : ∀ s ∈ ss, s ≠ []) (hchain : ∀ s ∈ ss, s.IsChain fun b c => Adjoins x b c)
    (hgaps : ss.IsChain fun s t => ∃ hs ht, Adjoins x (s.getLast hs) (t.head ht) = false) :
    List.Forall₂ (Spans x) ss (coalesce x ss.flatten) := by
  induction ss with
  | nil => exact .nil
  | cons s ss ih =>
    rw [List.flatten_cons] at hfree ⊢
    have hgap : ∀ b ∈ s.getLast?, ∀ c ∈ ss.flatten.head?, Adjoins x b c = false := by
      intro b hb c hc
      cases ss with
      | nil => cases hc
      | cons t ss =>
        obtain ⟨⟨hs, ht, hgap⟩, -⟩ := List.isChain_cons_cons.1 hgaps
        rw [List.flatten_cons, List.head?_append_of_ne_nil _ ht, List.head?_eq_some_head ht] at hc
        rw [List.getLast?_eq_some_getLast hs] at hb
        rw [← Option.some.inj hb, ← Option.some.inj hc]
        exact hgap
    obtain ⟨b, hspans, heq⟩ := exists_spans_append (hne s List.mem_cons_self)
      (fun b hb => hfree b (List.mem_append_left _ hb)) (hchain s List.mem_cons_self) hgap
    rw [heq]
    refine .cons hspans (ih ?_ ?_ ?_ hgaps.tail)
    · exact fun b hb => hfree b (List.mem_append_right _ hb)
    · exact fun t ht => hne t (List.mem_cons_of_mem s ht)
    · exact fun t ht => hchain t (List.mem_cons_of_mem s ht)

theorem Spans.of_map_releaseIn {ps : List Nat} {s : List Block}
    (h : Spans x (s.map (Block.releaseIn x ps)) b) : Spans x s b where
  free_eq := h.free_eq
  address_eq := by
    rw [← h.address_eq, List.head?_map, Option.map_map]
    exact congrArg (Option.map · s.head?) (funext fun c => (c.address_releaseIn ps).symm)
  stop_eq := by
    rw [← h.stop_eq, List.getLast?_map, Option.map_map]
    exact congrArg (Option.map · s.getLast?) (funext fun c => (c.stop_releaseIn ps).symm)

/-- Once all blocks are free, each stretch of them is one block. -/
theorem spans_coalesce_map {ps : List Nat} (hfree : ∀ b ∈ bs, (b.releaseIn x ps).free = true) :
    List.Forall₂ (Spans x) (stretches x bs) (coalesce x (bs.map (Block.releaseIn x ps))) := by
  have hadjoins (b c : Block) :
      Adjoins x (b.releaseIn x ps) (c.releaseIn x ps) = Adjoins x b c := by
    unfold Adjoins
    rw [Block.address_releaseIn, Block.stop_releaseIn]
  have hflat : (stretches x bs).flatten = bs := List.flatten_splitBy _ _
  have hmap : ((stretches x bs).map (List.map (Block.releaseIn x ps))).flatten =
      bs.map (Block.releaseIn x ps) := by
    rw [← List.map_flatten, hflat]
  -- Stretches are told by addresses alone, so they stay when blocks turn free.
  have hspans := spans_coalesce_flatten (x := x)
    ((stretches x bs).map (List.map (Block.releaseIn x ps))) ?_ ?_ ?_ ?_
  · rw [hmap, List.forall₂_map_left_iff] at hspans
    exact hspans.imp fun _ _ => Spans.of_map_releaseIn
  · rw [hmap]
    simpa using hfree
  · intro s hs
    obtain ⟨t, ht, rfl⟩ := List.mem_map.1 hs
    exact mt List.map_eq_nil_iff.1 (List.ne_nil_of_mem_splitBy ht)
  · intro s hs
    obtain ⟨t, ht, rfl⟩ := List.mem_map.1 hs
    refine (List.isChain_map _).2 ?_
    simp only [hadjoins]
    exact List.isChain_of_mem_splitBy ht
  · refine (List.isChain_map _).2 ((List.isChain_getLast_head_splitBy (Adjoins x) bs).imp ?_)
    rintro s t ⟨hs, ht, hgap⟩
    refine ⟨mt List.map_eq_nil_iff.1 hs, mt List.map_eq_nil_iff.1 ht, ?_⟩
    rw [List.getLast_map, List.head_map, hadjoins]
    exact hgap

/-! ### What stays -/

theorem live_coalesce (bs : List Block) : live (coalesce x bs) = live bs := by
  induction bs with
  | nil => rfl
  | cons b r ih =>
    rw [coalesce_cons, live_joined]
    cases hb : b.free with
    | true => rw [live_cons_of_free hb, live_cons_of_free hb, ih]
    | false => rw [live_cons_of_not_free hb, live_cons_of_not_free hb, ih]

theorem region_coalesce (bs : List Block) : region x (coalesce x bs) = region x bs := by
  induction bs with
  | nil => rfl
  | cons b r ih => rw [coalesce_cons, region_joined, region_cons, region_cons, ih]

theorem region_map_releaseIn (ps : List Nat) (bs : List Block) :
    region x (bs.map (Block.releaseIn x ps)) = region x bs := by
  induction bs with
  | nil => rfl
  | cons b r ih =>
    rw [List.map_cons, region_cons, region_cons, ih, Block.bytes, Block.address_releaseIn,
      Block.stop_releaseIn]
    rfl

end Hart
