/-
Heaps without gaps.

Blocks are appended at the mark, and no request gives up what a block covers.  So as long as
the mark is only moved by allocations, the blocks cover everything between the base and the
mark (`Arena.Gapless`).

* `Allocated.region_eq`, `Resized.region_eq` — the blocks come to cover just what the mark
  moves over;
* `Consistent.gapless_request` — every request keeps a heap gapless that does not move the mark
  for the program;
* `Session.Reachable.gapless` — so does every run that was never granted an address.

Design notes: a granted address lies in no block, and behind one the mark need not be on whole
cells any more, so that the next block leaves a gap.
-/
import Hart.Proofs.Heap.Session

namespace Hart

open AllocM

variable {x : Xlen} {need limit low brk brk' : Nat} {bs bs' l r : List Block} {b b' : Block}

/-! ### What blocks cover -/

theorem Allocated.region_eq (h : Allocated x need limit bs brk bs' brk' b)
    (hplaced : Placed x low bs brk) (hdvd : x.bytes ∣ brk) :
    region x bs' = region x bs ∪ Set.Ico brk brk' := by
  have hle := h.brk_le
  cases h with
  | @reuse l r d _ hl hd =>
    rw [region_append, region_cut (b := d.take) hd.2, Set.Ico_self, Set.union_empty, region_append,
      region_cons, region_cons]
    rfl
  | @extend l d _ hnone hfree hstop hlimit =>
    have hbytes : (d.take.resize need).bytes x = d.bytes x ∪ Set.Ico brk (d.payload x + need) := by
      rw [Block.bytes, Block.bytes, hstop]
      exact (Set.Ico_union_Ico_eq_Ico (hstop ▸ (d.address_lt_stop x).le) hle).symm
    rw [region_append, region_append, region_singleton, region_singleton, hbytes, Set.union_assoc]
  | @append _ _ address hnone hlast haddress hlimit =>
    obtain ⟨hdvd', hlow, hhigh⟩ := Address.alignUp?_spec haddress
    have haligned : address = brk := by
      have hzero : address - brk = 0 :=
        Nat.eq_zero_of_dvd_of_lt (Nat.dvd_sub hdvd' hdvd) (by omega)
      omega
    subst haligned
    rw [region_append, region_singleton]
    rfl

/-- The mark stays on whole cells. -/
theorem Allocated.brk_dvd (h : Allocated x need limit bs brk bs' brk' b)
    (hplaced : Placed x low bs brk) (hneed : x.bytes ∣ need) (hdvd : x.bytes ∣ brk) :
    x.bytes ∣ brk' := by
  cases h with
  | reuse hl hd => exact hdvd
  | @extend l d _ hnone hfree hstop hlimit =>
    have haddress := (hplaced.of_mem (b := d) (by simp)).2.1.address_dvd
    exact Nat.dvd_add (Nat.dvd_add haddress (bytes_dvd_headerSize x)) hneed
  | append hnone hlast haddress hlimit =>
    exact Nat.dvd_add (Nat.dvd_add (Address.alignUp?_spec haddress).1 (bytes_dvd_headerSize x)) hneed

theorem Resized.region_eq (h : Resized x need limit bs brk b bs' brk' b') :
    region x bs' = region x bs ∪ Set.Ico brk brk' := by
  have hle := h.brk_le
  cases h with
  | shrink hsize =>
    rw [region_append, region_cut hsize, Set.Ico_self, Set.union_empty, region_append]
  | @absorb l r _ n _ hlt habsorbs =>
    rw [region_append, region_cut habsorbs.2.2, region_cons, bytes_absorb habsorbs.2.1,
      Set.union_assoc, Set.Ico_self, Set.union_empty, region_append, region_cons, region_cons]
  | @grow l _ _ hlt hstop hlimit =>
    have hbytes : (b.resize need).bytes x = b.bytes x ∪ Set.Ico brk (b.payload x + need) := by
      rw [Block.bytes, Block.bytes, hstop]
      exact (Set.Ico_union_Ico_eq_Ico (hstop ▸ (b.address_lt_stop x).le) hle).symm
    rw [region_append, region_append, region_singleton, region_singleton, hbytes, Set.union_assoc]

theorem Resized.brk_dvd (h : Resized x need limit bs brk b bs' brk' b')
    (hplaced : Placed x low bs brk) (hneed : x.bytes ∣ need) (hdvd : x.bytes ∣ brk) :
    x.bytes ∣ brk' := by
  cases h with
  | shrink hsize => exact hdvd
  | absorb hlt habsorbs => exact hdvd
  | grow hlt hstop hlimit =>
    have haddress := (hplaced.of_mem (b := b) (by simp)).2.1.address_dvd
    exact Nat.dvd_add (Nat.dvd_add haddress (bytes_dvd_headerSize x)) hneed

namespace Arena

variable {a a' : Arena x} {p q size : Nat} {zeroed : Bool}

/-- The blocks cover everything from the base to the mark, which is on whole cells. -/
structure Gapless (a : Arena x) (bs : List Block) : Prop where
  brk_dvd : x.bytes ∣ a.heap.brk
  region_eq : region x bs = Set.Ico a.heap.base a.heap.brk

namespace Gapless

/-- Blocks that come to cover what the mark moves over leave no gap. -/
theorem advance (hg : a.Gapless bs) (h : a.Represents bs) (hbase : a'.heap.base = a.heap.base)
    (hle : a.heap.brk ≤ a'.heap.brk) (hdvd : x.bytes ∣ a'.heap.brk)
    (hregion : region x bs' = region x bs ∪ Set.Ico a.heap.brk a'.heap.brk) : a'.Gapless bs' where
  brk_dvd := hdvd
  region_eq := by
    rw [hregion, hg.region_eq, hbase]
    exact Set.Ico_union_Ico_eq_Ico h.placed.le hle

theorem answered (hg : a.Gapless bs) (h : a.Consistent bs)
    (hanswered : Answered size zeroed a bs q a') : ∃ bs', a'.Consistent bs' ∧ a'.Gapless bs' := by
  cases hanswered with
  | refused hnone => exact ⟨bs, h, hg⟩
  | @granted need _ bs' b hsize hround hallocated hconsistent hevolves hzero =>
    obtain ⟨-, hneed, -, -⟩ := Heap.roundSize?_spec hsize hround
    refine ⟨bs', hconsistent, hg.advance h.toRepresents hevolves.base_eq hallocated.brk_le ?_ ?_⟩
    · exact hallocated.brk_dvd h.placed hneed hg.brk_dvd
    · exact hallocated.region_eq h.placed hg.brk_dvd

theorem reallocated (hg : a.Gapless bs) (h : a.Consistent bs)
    (hreallocated : Reallocated size a bs b q a') :
    ∃ bs', a'.Consistent bs' ∧ a'.Gapless bs' := by
  cases hreallocated with
  | refused hnone => exact ⟨bs, h, hg⟩
  | @inPlace need _ bs' b' hsize hround hresized hconsistent hevolves hzero =>
    obtain ⟨-, hneed, -, -⟩ := Heap.roundSize?_spec hsize hround
    refine ⟨bs', hconsistent, hg.advance h.toRepresents hevolves.base_eq hresized.brk_le ?_ ?_⟩
    · exact hresized.brk_dvd h.placed hneed hg.brk_dvd
    · exact hresized.region_eq
  | @moved need _ l r b' hsize hround hnot hallocated hconsistent hevolves hcopied hzero =>
    obtain ⟨-, hneed, -, -⟩ := Heap.roundSize?_spec hsize hround
    refine ⟨_, hconsistent, hg.advance h.toRepresents hevolves.base_eq hallocated.brk_le ?_ ?_⟩
    · exact hallocated.brk_dvd h.placed hneed hg.brk_dvd
    · rw [region_released]
      exact hallocated.region_eq h.placed hg.brk_dvd

end Gapless

theorem Consistent.gapless_free (h : a.Consistent bs) (hg : a.Gapless bs) (p : Nat) :
    ∃ bs', (Reply.arena ((Request.free p).run a)).Consistent bs' ∧
      (Reply.arena ((Request.free p).run a)).Gapless bs' := by
  rw [Request.run_free]
  by_cases hnull : p = null
  · subst hnull
    exact ⟨bs, h, hg⟩
  by_cases hlive : ∃ b ∈ live bs, b.payload x = p
  · obtain ⟨b, hb, rfl⟩ := hlive
    obtain ⟨hmem, hfree⟩ := mem_live.1 hb
    obtain ⟨l, r, rfl⟩ := List.append_of_mem hmem
    obtain ⟨_, a', hrun, hconsistent, hbrk, hevolves⟩ := h.yields_free hfree
    rw [hrun]
    refine ⟨_, hconsistent, hbrk.symm ▸ hg.brk_dvd, ?_⟩
    rw [region_released, hg.region_eq, ← hevolves.base_eq, ← hbrk]
    rfl
  · rw [h.free_eq_error hnull fun b hb hp => hlive ⟨b, hb, hp⟩]
    exact ⟨bs, h, hg⟩

theorem Consistent.gapless_realloc (h : a.Consistent bs) (hg : a.Gapless bs) (p size : Nat) :
    ∃ bs', (Reply.arena ((Request.realloc p size).run a)).Consistent bs' ∧
      (Reply.arena ((Request.realloc p size).run a)).Gapless bs' := by
  rw [Request.run]
  by_cases hnull : p = null
  · subst hnull
    obtain ⟨q, a', hrun, hanswered⟩ := h.yields_malloc size
    rw [realloc_null, hrun]
    exact hg.answered h hanswered
  by_cases hlive : ∃ b ∈ live bs, b.payload x = p
  · obtain ⟨b, hb, rfl⟩ := hlive
    obtain ⟨hmem, hfree⟩ := mem_live.1 hb
    obtain ⟨l, r, rfl⟩ := List.append_of_mem hmem
    obtain ⟨q, a', hrun, hreallocated⟩ := h.yields_realloc hfree size
    rw [hrun]
    exact hg.reallocated h hreallocated
  · rw [h.realloc_eq_error hnull fun b hb hp => hlive ⟨b, hb, hp⟩]
    exact ⟨bs, h, hg⟩

/-- Every request that does not move the mark for the program leaves no gap. -/
theorem Consistent.gapless_request (h : a.Consistent bs) (hg : a.Gapless bs) (r : Request)
    (hstays : ∀ increment, r = .sbrk increment →
      0 ≤ increment ∧ a.heap.brk + increment.toNat ≤ a.heap.limit → increment.toNat = 0) :
    ∃ bs', (Reply.arena (r.run a)).Consistent bs' ∧ (Reply.arena (r.run a)).Gapless bs' := by
  cases r with
  | malloc size =>
    obtain ⟨q, a', hrun, hanswered⟩ := h.yields_malloc size
    rw [Request.run, hrun]
    exact hg.answered h hanswered
  | calloc size =>
    obtain ⟨q, a', hrun, hanswered⟩ := h.yields_allocate size true
    rw [Request.run, calloc, hrun]
    exact hg.answered h hanswered
  | realloc p size => exact h.gapless_realloc hg p size
  | free p => exact h.gapless_free hg p
  | sbrk increment =>
    rw [Request.run]
    by_cases hfits : 0 ≤ increment ∧ a.heap.brk + increment.toNat ≤ a.heap.limit
    · rw [sbrk_of_le hfits, hstays increment rfl hfits]
      exact ⟨bs, h, hg⟩
    · rw [sbrk_of_not_le hfits]
      exact ⟨bs, h, hg⟩
  | setAlwaysCalloc enabled =>
    exact ⟨bs, h.withHeap rfl rfl (Nat.le_refl _) h.brk_le ⟨rfl, rfl⟩ rfl, hg.1, hg.2⟩

end Arena

namespace Session

variable {s : Session x} {base : Nat}

/-- No other request grants an address. -/
theorem granted_perform (s : Session x) {r : Request} (hr : ∀ increment, r ≠ .sbrk increment) :
    (s.perform r).granted = s.granted := by
  unfold perform
  cases r.run s.arena with
  | error e a => cases r <;> rfl
  | ok q a =>
    cases r with
    | sbrk increment => exact absurd rfl (hr increment)
    | _ => rfl

theorem granted_subset_perform (s : Session x) (r : Request) : s.granted ⊆ (s.perform r).granted := by
  by_cases hr : ∃ increment, r = .sbrk increment
  · obtain ⟨increment, rfl⟩ := hr
    unfold perform
    cases (Request.sbrk increment).run s.arena with
    | error e a => exact subset_rfl
    | ok q a => exact Set.subset_union_left
  · exact (granted_perform s fun increment heq => hr ⟨increment, heq⟩).symm.subset

/-- The mark was moved for the program only if addresses were granted. -/
theorem toNat_eq_zero_of_granted {increment : Int}
    (hgranted : (s.perform (.sbrk increment)).granted = ∅)
    (hfits : 0 ≤ increment ∧ s.arena.heap.brk + increment.toNat ≤ s.arena.heap.limit) :
    increment.toNat = 0 := by
  have hin : Set.Ico s.arena.heap.brk (s.arena.heap.brk + increment.toNat) ⊆
      (s.perform (.sbrk increment)).granted := by
    rw [perform, Request.run, sbrk_of_le hfits]
    exact Set.subset_union_right
  rw [hgranted] at hin
  by_contra hne
  exact hin ⟨Nat.le_refl _, by omega⟩

/-- A program that was granted no address works on a heap without gaps. -/
theorem Reachable.gapless (hw : Window x base limit) (h : Reachable base limit s)
    (hgranted : s.granted = ∅) (hbs : s.arena.Consistent bs) : s.arena.Gapless bs := by
  obtain ⟨alwaysCalloc, m, hrun⟩ := h
  -- Induction on the run; the blocks of each arena on it are those that it is sound with.
  induction hrun generalizing bs with
  | refl =>
    obtain rfl : bs = [] :=
      hbs.toRepresents.unique (sound_fresh hw alwaysCalloc m).consistent.toRepresents
    refine ⟨hw.base_dvd, ?_⟩
    show region x [] = Set.Ico base base
    rw [Set.Ico_self]
    simp [region]
  | @tail s s' hrun hstep ih =>
    obtain ⟨bs₀, hsound⟩ := Reachable.sound hw ⟨alwaysCalloc, m, hrun⟩
    cases hstep with
    | request r =>
      have hgapless := ih (Set.subset_empty_iff.1 (hgranted ▸ granted_subset_perform s r))
        hsound.consistent
      rw [arena_perform] at *
      obtain ⟨bs', hbs', hgapless'⟩ := hsound.consistent.gapless_request hgapless r fun i hr =>
        toNat_eq_zero_of_granted (hr ▸ hgranted)
      obtain rfl := hbs.toRepresents.unique hbs'.toRepresents
      exact hgapless'
    | store address v hwritable =>
      obtain rfl := hbs.toRepresents.unique (hsound.store v hwritable).consistent.toRepresents
      have hgapless := ih hgranted hsound.consistent
      exact ⟨hgapless.1, hgapless.2⟩

end Session

end Hart
