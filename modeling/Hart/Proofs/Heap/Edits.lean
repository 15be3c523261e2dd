/-
Edits of block lists.

The allocator edits its list in three ways, here as functions on lists:

* `joinNext` — a free block takes in the free block right behind it;
* `joinPrev` — a free block is taken in by the free block right before it;
* `cut` — a block is cut down and what is left becomes a free block.

None of them leaves the range of the list, drops or invents an allocated block,
or changes which bytes are covered: `placed_joinNext`, `live_joined`, `region_joined`
and the same for the others.

Design notes: an edit works at a block `b` inside `l ++ b :: r` and answers with
the block that remains at its address and the list behind it, since that is what
the next edit continues with.
-/
import Mathlib.Order.Interval.Set.LinearOrder
import Hart.Proofs.Heap.Blocks

namespace Hart

variable {x : Xlen}

/-! ### Joining with the next block -/

/-- The block with the one behind it taken in, header and all. -/
def Block.absorb (x : Xlen) (b n : Block) : Block :=
  { b with size := b.size + (headerSize x + n.size) }

/-- The block after taking in the next one where possible, and what follows it. -/
def joinNext (x : Xlen) (b : Block) : List Block → Block × List Block
  | [] => (b, [])
  | n :: r => if Mergeable x b n then (b.absorb x n, r) else (b, n :: r)

/-- The list that starts with the joined block. -/
def joined (x : Xlen) (b : Block) (r : List Block) : List Block :=
  (joinNext x b r).1 :: (joinNext x b r).2

theorem joinNext_of_mergeable {b n : Block} {r : List Block} (h : Mergeable x b n) :
    joinNext x b (n :: r) = (b.absorb x n, r) :=
  if_pos h

theorem joinNext_of_not_mergeable {b n : Block} {r : List Block} (h : ¬ Mergeable x b n) :
    joinNext x b (n :: r) = (b, n :: r) :=
  if_neg h

@[simp] theorem joinNext_address (b : Block) (r : List Block) :
    (joinNext x b r).1.address = b.address := by
  cases r with
  | nil => rfl
  | cons n r =>
    by_cases h : Mergeable x b n
    · rw [joinNext_of_mergeable h]
      rfl
    · rw [joinNext_of_not_mergeable h]

@[simp] theorem joinNext_free (b : Block) (r : List Block) :
    (joinNext x b r).1.free = b.free := by
  cases r with
  | nil => rfl
  | cons n r =>
    by_cases h : Mergeable x b n
    · rw [joinNext_of_mergeable h]
      rfl
    · rw [joinNext_of_not_mergeable h]

/-- Two blocks become one from the start of the first to the end of the second. -/
theorem stop_absorb {b n : Block} (h : n.address = b.stop x) : (b.absorb x n).stop x = n.stop x := by
  unfold Block.absorb Block.stop Block.payload at *
  show b.address + headerSize x + (b.size + (headerSize x + n.size)) = _
  omega

theorem whole_absorb {b n : Block} (hb : b.Whole x) (hn : n.Whole x) : (b.absorb x n).Whole x where
  address_dvd := hb.address_dvd
  size_dvd := Nat.dvd_add hb.size_dvd (Nat.dvd_add (bytes_dvd_headerSize x) hn.size_dvd)
  size_pos := Nat.add_pos_left hb.size_pos _

theorem bytes_absorb {b n : Block} (h : n.address = b.stop x) :
    (b.absorb x n).bytes x = b.bytes x ∪ n.bytes x := by
  have hb := b.address_lt_stop x
  have hn := n.address_lt_stop x
  have hstop := stop_absorb h
  ext c
  show b.address ≤ c ∧ c < (b.absorb x n).stop x ↔
    (b.address ≤ c ∧ c < b.stop x) ∨ (n.address ≤ c ∧ c < n.stop x)
  omega

theorem placed_absorb {low high : Nat} {l r : List Block} {b n : Block}
    (h : Placed x low (l ++ b :: n :: r) high) (hn : n.address = b.stop x) :
    Placed x low (l ++ b.absorb x n :: r) high := by
  obtain ⟨hl, hb, -, hnw, hr⟩ := placed_append_cons.1 h
  refine placed_append_cons.2 ⟨hl, whole_absorb hb hnw, ?_⟩
  rw [stop_absorb hn]
  exact hr

theorem placed_joinNext {high : Nat} {b : Block} {r : List Block} (hb : b.Whole x)
    (hr : Placed x (b.stop x) r high) :
    (joinNext x b r).1.Whole x ∧
      Placed x ((joinNext x b r).1.stop x) (joinNext x b r).2 high := by
  cases r with
  | nil => exact ⟨hb, hr⟩
  | cons n r =>
    by_cases h : Mergeable x b n
    · rw [joinNext_of_mergeable h]
      refine ⟨whole_absorb hb hr.2.1, ?_⟩
      rw [stop_absorb h.2.2]
      exact hr.2.2
    · rw [joinNext_of_not_mergeable h]
      exact ⟨hb, hr⟩

@[simp] theorem live_joined (b : Block) (r : List Block) : live (joined x b r) = live (b :: r) := by
  unfold joined
  cases r with
  | nil => rfl
  | cons n r =>
    by_cases h : Mergeable x b n
    · rw [joinNext_of_mergeable h, live_cons_of_free h.1, live_cons_of_free h.2.1]
      exact live_cons_of_free h.1
    · rw [joinNext_of_not_mergeable h]

@[simp] theorem region_joined (b : Block) (r : List Block) :
    region x (joined x b r) = region x (b :: r) := by
  unfold joined
  cases r with
  | nil => rfl
  | cons n r =>
    by_cases h : Mergeable x b n
    · rw [joinNext_of_mergeable h, region_cons, bytes_absorb h.2.2, Set.union_assoc, region_cons,
        region_cons]
    · rw [joinNext_of_not_mergeable h]

theorem headerRegion_joined_subset (b : Block) (r : List Block) :
    headerRegion x (joined x b r) ⊆ headerRegion x (b :: r) := by
  unfold joined
  cases r with
  | nil => exact subset_rfl
  | cons n r =>
    by_cases h : Mergeable x b n
    · rw [joinNext_of_mergeable h, headerRegion_cons, headerRegion_cons, headerRegion_cons]
      exact Set.union_subset_union_right _ Set.subset_union_right
    · rw [joinNext_of_not_mergeable h]

/-- Behind a list without adjacent free blocks, joining leaves none. -/
theorem apart_joined {b : Block} {r : List Block} (hr : Apart x r) : Apart x (joined x b r) := by
  unfold joined
  cases r with
  | nil => exact List.isChain_singleton b
  | cons n r =>
    by_cases h : Mergeable x b n
    · rw [joinNext_of_mergeable h]
      cases r with
      | nil => exact List.isChain_singleton _
      | cons m r =>
        -- The joined block ends where `n` did, and `n` was not adjacent to a free block.
        obtain ⟨hnm, hr⟩ := apart_cons_cons.1 hr
        refine apart_cons_cons.2 ⟨fun hm => hnm ⟨h.2.1, hm.2.1, ?_⟩, hr⟩
        rw [hm.2.2, stop_absorb h.2.2]
    · rw [joinNext_of_not_mergeable h]
      exact apart_cons_cons.2 ⟨h, hr⟩

/-- What lies before a block does not notice that it was joined. -/
theorem apart_append_joined {l r : List Block} {b : Block} (hl : Apart x (l ++ [b]))
    (hr : Apart x r) : Apart x (l ++ joined x b r) := by
  refine apart_append_cons.2 ⟨?_, apart_joined hr⟩
  rcases List.eq_nil_or_concat l with rfl | ⟨l, p, rfl⟩
  · exact List.isChain_singleton _
  · rw [List.concat_eq_append, List.append_assoc, List.singleton_append] at *
    obtain ⟨hl, hpb, -⟩ := apart_append_cons_cons.1 hl
    -- Joining changes neither the address nor the state of the block.
    refine apart_append_cons_cons.2 ⟨hl, fun hm => hpb ⟨hm.1, ?_, ?_⟩, List.isChain_singleton _⟩
    · simpa using hm.2.1
    · simpa using hm.2.2

/-! ### Joining with the previous block -/

/-- The list after the block `b` was taken in by the one before it where possible. -/
def joinPrev (x : Xlen) (l : List Block) (b : Block) (r : List Block) : List Block :=
  match l.getLast? with
  | none => b :: r
  | some p => l.dropLast ++ joined x p (b :: r)

@[simp] theorem joinPrev_nil (b : Block) (r : List Block) : joinPrev x [] b r = b :: r := rfl

@[simp] theorem joinPrev_concat (l : List Block) (p b : Block) (r : List Block) :
    joinPrev x (l ++ [p]) b r = l ++ joined x p (b :: r) := by
  simp [joinPrev]

theorem live_joinPrev (l : List Block) (b : Block) (r : List Block) :
    live (joinPrev x l b r) = live (l ++ b :: r) := by
  rcases List.eq_nil_or_concat l with rfl | ⟨l, p, rfl⟩
  · rfl
  · rw [List.concat_eq_append, joinPrev_concat, live_append, live_joined, ← live_append,
      List.append_assoc, List.singleton_append]

theorem region_joinPrev (l : List Block) (b : Block) (r : List Block) :
    region x (joinPrev x l b r) = region x (l ++ b :: r) := by
  rcases List.eq_nil_or_concat l with rfl | ⟨l, p, rfl⟩
  · rfl
  · rw [List.concat_eq_append, joinPrev_concat, region_append, region_joined, ← region_append,
      List.append_assoc, List.singleton_append]

/-- Joining on both sides leaves no adjacent free blocks. -/
theorem apart_joinPrev {l r : List Block} {b : Block} (hl : Apart x l) (hr : Apart x (b :: r)) :
    Apart x (joinPrev x l b r) := by
  rcases List.eq_nil_or_concat l with rfl | ⟨l, p, rfl⟩
  · exact hr
  · rw [List.concat_eq_append] at *
    rw [joinPrev_concat]
    exact apart_append_joined hl hr

/-! ### Cutting a block down -/

/-- The block cut down to `need` bytes, and what follows it: a free block for the
rest, if that exceeds a header, joined with what comes next. -/
def cut (x : Xlen) (b : Block) (need : Nat) (r : List Block) : Block × List Block :=
  if b.size - need ≤ headerSize x then (b, r)
  else
    (b.resize need,
      joined x ⟨b.payload x + need, b.size - need - headerSize x, true⟩ r)

/-- The rest of a block behind `need` bytes. -/
def remainder (x : Xlen) (b : Block) (need : Nat) : Block :=
  ⟨b.payload x + need, b.size - need - headerSize x, true⟩

theorem cut_of_le {b : Block} {need : Nat} {r : List Block} (h : b.size - need ≤ headerSize x) :
    cut x b need r = (b, r) :=
  if_pos h

theorem cut_of_lt {b : Block} {need : Nat} {r : List Block} (h : headerSize x < b.size - need) :
    cut x b need r = (b.resize need, joined x (remainder x b need) r) :=
  if_neg (Nat.not_le.2 h)

@[simp] theorem cut_address (b : Block) (need : Nat) (r : List Block) :
    (cut x b need r).1.address = b.address := by
  unfold cut
  split <;> rfl

@[simp] theorem cut_free (b : Block) (need : Nat) (r : List Block) :
    (cut x b need r).1.free = b.free := by
  unfold cut
  split <;> rfl

theorem stop_remainder {b : Block} {need : Nat} (h : headerSize x < b.size - need) :
    (remainder x b need).stop x = b.stop x := by
  unfold remainder Block.stop Block.payload
  show b.address + headerSize x + need + headerSize x + (b.size - need - headerSize x) = _
  omega

/-- A block that is cut in two and joined again is the block that it was. -/
theorem absorb_remainder {b : Block} {need : Nat} (h : headerSize x < b.size - need) :
    (b.resize need).absorb x (remainder x b need) = b := by
  have hsum : need + (headerSize x + (b.size - need - headerSize x)) = b.size := by omega
  show { b with size := need + (headerSize x + (b.size - need - headerSize x)) } = b
  rw [hsum]

theorem whole_remainder {b : Block} {need : Nat} (hb : b.Whole x) (hneed : x.bytes ∣ need)
    (h : headerSize x < b.size - need) : (remainder x b need).Whole x where
  address_dvd :=
    Nat.dvd_add (Nat.dvd_add hb.address_dvd (bytes_dvd_headerSize x)) hneed
  size_dvd := Nat.dvd_sub (Nat.dvd_sub hb.size_dvd hneed) (bytes_dvd_headerSize x)
  size_pos := Nat.sub_pos_of_lt h

theorem placed_split {low high need : Nat} {l r : List Block} {b : Block}
    (h : Placed x low (l ++ b :: r) high) (hpos : 0 < need) (hneed : x.bytes ∣ need)
    (hspare : headerSize x < b.size - need) :
    Placed x low (l ++ b.resize need :: remainder x b need :: r) high := by
  obtain ⟨hl, hb, hr⟩ := placed_append_cons.1 h
  refine placed_append_cons.2 ⟨hl, ⟨hb.address_dvd, hneed, hpos⟩, Nat.le_refl _, ?_, ?_⟩
  · exact whole_remainder hb hneed hspare
  · rw [stop_remainder hspare]
    exact hr

theorem placed_cut {high need : Nat} {b : Block} {r : List Block} (hb : b.Whole x)
    (hpos : 0 < need) (hneed : x.bytes ∣ need) (hr : Placed x (b.stop x) r high) :
    (cut x b need r).1.Whole x ∧ Placed x ((cut x b need r).1.stop x) (cut x b need r).2 high := by
  by_cases h : b.size - need ≤ headerSize x
  · rw [cut_of_le h]
    exact ⟨hb, hr⟩
  · have h := Nat.not_le.1 h
    rw [cut_of_lt h]
    have hrest := whole_remainder hb hneed h
    rw [← stop_remainder h] at hr
    obtain ⟨hwhole, hplaced⟩ := placed_joinNext hrest hr
    refine ⟨⟨hb.address_dvd, hneed, hpos⟩, ?_, hwhole, hplaced⟩
    rw [joinNext_address]
    exact Nat.le_refl _

/-- A block that is cut down keeps at least the size asked for. -/
theorem le_size_cut {need : Nat} {b : Block} {r : List Block} (h : need ≤ b.size) :
    need ≤ (cut x b need r).1.size := by
  unfold cut
  split
  · exact h
  · exact Nat.le_refl _

theorem live_cut (b : Block) (need : Nat) (r : List Block) :
    live ((cut x b need r).1 :: (cut x b need r).2) =
      if b.free = true then live r else (cut x b need r).1 :: live r := by
  have hrest : live (cut x b need r).2 = live r := by
    unfold cut
    split
    · rfl
    · rw [live_joined, live_cons_of_free rfl]
  by_cases hfree : b.free = true
  · rw [if_pos hfree, live_cons_of_free (by simpa using hfree), hrest]
  · rw [if_neg hfree, live_cons_of_not_free (by simpa using hfree), hrest]

theorem stop_cut_le {need : Nat} {b : Block} {r : List Block} (h : need ≤ b.size) :
    (cut x b need r).1.stop x ≤ b.stop x := by
  unfold cut Block.stop Block.payload
  split
  · exact Nat.le_refl _
  · exact Nat.add_le_add_left h _

/-- A cut covers the bytes that were covered. -/
theorem region_cut {need : Nat} {b : Block} {r : List Block} (h : need ≤ b.size) :
    region x ((cut x b need r).1 :: (cut x b need r).2) = region x (b :: r) := by
  by_cases hspare : b.size - need ≤ headerSize x
  · rw [cut_of_le hspare]
  · have hspare := Nat.not_le.1 hspare
    have hlow : b.address ≤ b.payload x + need :=
      (b.address_lt_payload x).le.trans (Nat.le_add_right _ _)
    have hbytes : (b.resize need).bytes x ∪ (remainder x b need).bytes x = b.bytes x := by
      rw [Block.bytes, Block.bytes, stop_remainder hspare]
      exact Set.Ico_union_Ico_eq_Ico hlow (Nat.add_le_add_left h _)
    rw [cut_of_lt hspare, region_cons, region_joined, region_cons, region_cons, ← Set.union_assoc,
      hbytes]

/-- The headers after a cut are old ones or lie in the block that was cut. -/
theorem headerRegion_cut_subset (need : Nat) (b : Block) (r : List Block) :
    headerRegion x ((cut x b need r).1 :: (cut x b need r).2) ⊆ b.bytes x ∪ headerRegion x r := by
  by_cases hspare : b.size - need ≤ headerSize x
  · rw [cut_of_le hspare, headerRegion_cons]
    exact Set.union_subset_union_left _ (b.headerBytes_subset_bytes x)
  · have hspare := Nat.not_le.1 hspare
    rw [cut_of_lt hspare, headerRegion_cons]
    refine Set.union_subset ?_ ?_
    · exact (b.headerBytes_subset_bytes x).trans Set.subset_union_left
    · refine (headerRegion_joined_subset _ _).trans ?_
      rw [headerRegion_cons]
      refine Set.union_subset_union_left _ ?_
      refine ((remainder x b need).headerBytes_subset_bytes x).trans ?_
      rw [Block.bytes, stop_remainder hspare]
      refine Set.Ico_subset_Ico_left ?_
      unfold remainder Block.payload
      show b.address ≤ b.address + headerSize x + need
      omega

theorem apart_cut {need : Nat} {b : Block} {r : List Block} (hb : b.free = false)
    (hr : Apart x r) : Apart x ((cut x b need r).1 :: (cut x b need r).2) := by
  have hnot (c d : Block) (hc : c.free = false) : ¬ Mergeable x c d := by
    rintro ⟨hfree, -, -⟩
    rw [hc] at hfree
    exact Bool.noConfusion hfree
  by_cases hspare : b.size - need ≤ headerSize x
  · rw [cut_of_le hspare]
    cases r with
    | nil => exact List.isChain_singleton _
    | cons n r => exact apart_cons_cons.2 ⟨hnot b n hb, hr⟩
  · rw [cut_of_lt (Nat.not_le.1 hspare)]
    exact apart_cons_cons.2 ⟨hnot _ _ hb, apart_joined hr⟩

end Hart
