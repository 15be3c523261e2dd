/-
Releasing allocations.

`released x l b r` is the list `l ++ b :: r` after the allocated block `b` was
released: `b` is free and joined with its free neighbours on both sides.

* `Consistent.yields_free` — the payload of an allocated block can be released,
  and only headers change;
* `Represents.free_eq_error` — any other pointer is refused and nothing changes.
-/
import Hart.Proofs.Heap.Allocation

namespace Hart

open AllocM

variable {x : Xlen} {R : Set Nat}

/-- The block, no longer allocated. -/
def Block.release (b : Block) : Block := { b with free := true }

/-- The list around an allocated block after the block was released. -/
def released (x : Xlen) (l : List Block) (b : Block) (r : List Block) : List Block :=
  joinPrev x l (joinNext x b.release r).1 (joinNext x b.release r).2

theorem live_released (l : List Block) (b : Block) (r : List Block) :
    live (released x l b r) = live l ++ live r := by
  rw [released, live_joinPrev, live_append]
  congr 1
  exact (live_joined b.release r).trans (live_cons_of_free rfl)

theorem region_released (l : List Block) (b : Block) (r : List Block) :
    region x (released x l b r) = region x (l ++ b :: r) := by
  have hjoin : region x ((joinNext x b.release r).1 :: (joinNext x b.release r).2) =
      region x (b.release :: r) := region_joined b.release r
  rw [released, region_joinPrev, region_append, hjoin, region_append, region_cons, region_cons]
  rfl

theorem headerRegion_joined_release_subset (l : List Block) (b : Block) (r : List Block) :
    headerRegion x (l ++ joined x b.release r) ⊆ headerRegion x (l ++ b :: r) := by
  rw [headerRegion_append, headerRegion_append]
  refine Set.union_subset_union_right _ ((headerRegion_joined_subset b.release r).trans ?_)
  rw [headerRegion_cons, headerRegion_cons]
  exact subset_rfl

theorem apart_released {l r : List Block} {b : Block} (h : Apart x (l ++ b :: r)) :
    Apart x (released x l b r) := by
  obtain ⟨hl, hr⟩ := apart_append_cons.1 h
  exact apart_joinPrev (apart_left hl) (apart_joined hr.tail)

namespace Arena

variable {a a' : Arena x} {bs l r : List Block} {b : Block}

/-- An allocated block can be released. -/
theorem Consistent.yields_free (h : a.Consistent (l ++ b :: r)) (hlive : b.free = false) :
    Yields (free (b.payload x)) a fun _ a' =>
      a'.Consistent (released x l b r) ∧ a'.heap.brk = a.heap.brk ∧
        Evolves (headerRegion x (l ++ b :: r)) a a' := by
  have hne : b.payload x ≠ null := b.payload_ne_null x
  have hfound : a.allocated (b.payload x) = _ := h.allocated_of_mem hlive
  -- The block itself is counted, so the count can be lowered.
  have hcount : 1 ≤ a.heap.active := by
    rw [h.active_eq, live_append, live_cons_of_not_free hlive, List.length_append, List.length_cons]
    omega
  have haround := h.around.replace (d := b.release) rfl (placed_replace h.placed rfl rfl)
  unfold free
  rw [if_neg hne, yields_bind, yields_inspect hfound]
  refine (haround.yields_storeHeader (R := headerRegion x (l ++ b :: r)) ?_).bind ?_
  · exact headerBytes_subset_headerRegion (b := b) (by simp)
  rintro - a₁ ⟨hrep₁, hedited₁⟩
  rw [← hedited₁.active_eq] at hcount
  rw [yields_bind, yields_heap, yields_bind, yields_ofExcept (checkedDifference_of_le hcount),
    yields_bind, yields_modifyHeap]
  -- Counting changes no byte, so the blocks are still there.
  have hrep₂ : Represents { a₁ with heap := { a₁.heap with active := a₁.heap.active - 1 } }
      (l ++ b.release :: r) := hrep₁.of_heap rfl rfl (Nat.le_refl _) hrep₁.brk_le rfl rfl
  refine (hrep₂.yields_coalesceNext (R := headerRegion x (l ++ b :: r)) ?_).bind ?_
  · rw [headerRegion_append, headerRegion_cons b, headerRegion_cons b.release]
    exact Set.subset_union_right
  rintro v a₃ ⟨rfl, hrep₃, hedited₃⟩
  refine (hrep₃.yields_coalescePrev (headerRegion_joined_release_subset l b r)).imp ?_
  rintro - a₄ ⟨hrep₄, hedited₄⟩
  refine ⟨⟨hrep₄, apart_released h.apart, ?_⟩, ?_, ?_⟩
  · rw [hedited₄.active_eq, hedited₃.active_eq, live_released]
    show a₁.heap.active - 1 = _
    rw [hedited₁.active_eq, h.active_eq, live_append, live_cons_of_not_free hlive]
    simp
  · rw [hedited₄.brk_eq, hedited₃.brk_eq]
    exact hedited₁.brk_eq
  · refine hedited₁.toEvolves.trans (Evolves.trans ?_ (hedited₃.trans hedited₄).toEvolves)
    exact evolves_heap _ a₁ rfl rfl rfl

theorem Represents.inspect_allocated_eq_error (h : a.Represents bs) {pointer : Nat}
    (hnone : ∀ b ∈ live bs, b.payload x ≠ pointer) :
    (inspect fun a => a.allocated pointer) a = .error (.invalidPointer pointer) a := by
  rw [inspect, h.allocated_of_not_mem fun b hb hlive => hnone b (mem_live.2 ⟨hb, hlive⟩)]

/-- A pointer that is not the payload of an allocated block is refused. -/
theorem Represents.free_eq_error (h : a.Represents bs) {pointer : Nat} (hne : pointer ≠ null)
    (hnone : ∀ b ∈ live bs, b.payload x ≠ pointer) :
    free pointer a = .error (.invalidPointer pointer) a := by
  unfold free
  rw [if_neg hne]
  exact AllocM.bind_eq_error (h.inspect_allocated_eq_error hnone) _

end Arena

end Hart
