/-
Releasing allocations in any order.

Each release merges what it can, so different orders merge different blocks one after the
other.  Still they end alike: after the release of some pointers the blocks are those before,
free where the pointers lead, and coalesced.  That speaks of the pointers as a set.

* `Consistent.yields_forM_free` — the blocks after the release of a list of pointers;
* `Gapless.eq_singleton` — without gaps, one free block is left once everything is released;
* `Orderly.frees_commute` — two orders succeed both and end in arenas that agree, and if nothing
  is live any more, each stretch of blocks has become one free block.

Design notes: releasing is shown to commute with coalescing on lists (`coalesce_map_coalesce`),
so the induction over the pointers needs nothing about which of them are neighbours.
-/
import Hart.Proofs.Heap.Acceptance
import Hart.Proofs.Heap.Gapless
import Hart.Proofs.Heap.Undoing

namespace Hart

open AllocM

variable {x : Xlen}

namespace Arena

variable {a a' : Arena x} {bs : List Block} {hs : List Header} {ps qs : List Nat} {p : Nat}

/-- The release of a pointer, as a change of the coalesced list. -/
theorem Consistent.yields_free_pointer (h : a.Consistent bs) (hp : p ∈ a.pointers) :
    Yields (free p) a fun _ a' =>
      a'.Consistent (coalesce x (bs.map (Block.releaseIn x [p]))) ∧
        a'.heap.brk = a.heap.brk ∧ Evolves Set.univ a a' := by
  obtain ⟨b, hb, rfl⟩ := h.mem_pointers.1 hp
  obtain ⟨hmem, hlive⟩ := mem_live.1 hb
  obtain ⟨l, r, rfl⟩ := List.append_of_mem hmem
  refine (h.yields_free hlive).imp fun _ a' ⟨hconsistent, hbrk, hevolves⟩ => ⟨?_, hbrk, ?_⟩
  · rw [h.placed.map_releaseIn, ← released_eq_coalesce h.apart]
    exact hconsistent
  · exact hevolves.mono (Set.subset_univ _)

/-- The other pointers are still live. -/
theorem Consistent.mem_pointers_of_free (h : a.Consistent bs) (hp : p ∈ a.pointers)
    (hrun : free p a = .ok () a') {q : Nat} (hq : q ∈ a.pointers) (hne : q ≠ p) :
    q ∈ a'.pointers := by
  obtain ⟨a'', hs', hrun', -, hpointers⟩ := h.frees hp
  rw [hrun] at hrun'
  cases hrun'
  rw [hpointers]
  exact ⟨hq, hne⟩

/-- After the release of a list of pointers the blocks that they lead to are free, and the list
is coalesced. -/
theorem Consistent.yields_forM_free (h : a.Consistent bs) (hnodup : ps.Nodup)
    (hps : ∀ p ∈ ps, p ∈ a.pointers) :
    Yields (forM ps free) a fun _ a' =>
      a'.Consistent (coalesce x (bs.map (Block.releaseIn x ps))) ∧
        a'.heap.brk = a.heap.brk ∧ Evolves Set.univ a a' := by
  induction ps generalizing a bs with
  | nil =>
    rw [List.forM_nil, yields_pure, map_releaseIn_nil, coalesce_of_apart h.apart]
    exact ⟨h, rfl, Evolves.refl _ a⟩
  | cons p ps ih =>
    obtain ⟨hnotin, hnodup⟩ := List.nodup_cons.1 hnodup
    have hp := hps p List.mem_cons_self
    rw [List.forM_cons, yields_bind]
    obtain ⟨_, a₁, hrun, h₁, hbrk, hevolves⟩ := h.yields_free_pointer hp
    refine ⟨(), a₁, hrun, ?_⟩
    have hrest : ∀ q ∈ ps, q ∈ a₁.pointers := fun q hq =>
      h.mem_pointers_of_free hp hrun (hps q (List.mem_cons_of_mem p hq)) fun heq => hnotin (heq ▸ hq)
    refine (ih h₁ hnodup hrest).imp fun _ a₂ ⟨h₂, hbrk', hevolves'⟩ =>
      ⟨?_, hbrk'.trans hbrk, hevolves.trans hevolves'⟩
    have hcons : bs.map (Block.releaseIn x (p :: ps)) =
        (bs.map (Block.releaseIn x [p])).map (Block.releaseIn x ps) := by
      rw [List.map_map]
      exact List.map_congr_left fun b _ => (b.releaseIn_cons p ps).symm
    rw [coalesce_map_coalesce] at h₂
    rw [hcons]
    exact h₂

/-- Where blocks leave no gap, each starts where the one before it stops. -/
theorem Gapless.address_eq_stop {b c : Block} {r : List Block} (hg : a.Gapless (b :: c :: r))
    (h : a.Represents (b :: c :: r)) : c.address = b.stop x := by
  obtain ⟨hlow, -, hbc, -, hr⟩ := h.placed
  have hb := b.address_lt_stop x
  have hc := c.address_lt_stop x
  have hbrk := hr.le
  have hin : b.stop x ∈ region x (b :: c :: r) := by
    rw [hg.region_eq]
    exact ⟨by omega, by omega⟩
  obtain ⟨d, hd, hdlow, hdhigh⟩ := hin
  rcases List.mem_cons.1 hd with rfl | hd
  · exact absurd hdhigh (Nat.lt_irrefl _)
  rcases List.mem_cons.1 hd with rfl | hd
  · exact Nat.le_antisymm hdlow hbc
  · have hbehind := (hr.of_mem hd).1
    omega

/-- Free blocks that are not adjacent and leave no gap are at most one. -/
theorem Gapless.eq_singleton (hg : a.Gapless bs) (h : a.Consistent bs)
    (hfree : ∀ b ∈ bs, b.free = true) (hbrk : a.heap.base < a.heap.brk) :
    ∃ b, bs = [b] ∧ b.address = a.heap.base ∧ b.stop x = a.heap.brk := by
  have hregion := hg.region_eq
  match bs, hfree with
  | [], _ =>
    have hin : a.heap.base ∈ region x [] := by
      rw [hregion]
      exact ⟨Nat.le_refl _, hbrk⟩
    obtain ⟨b, hb, -⟩ := hin
    cases hb
  | [b], _ =>
    obtain ⟨hlow, -, hhigh⟩ := h.placed.of_mem (b := b) (by simp)
    rw [region_singleton] at hregion
    have hfirst : a.heap.base ∈ b.bytes x := by
      rw [hregion]
      exact ⟨Nat.le_refl _, hbrk⟩
    have hlast : a.heap.brk - 1 ∈ b.bytes x := by
      rw [hregion]
      exact ⟨by omega, by omega⟩
    have hend := hlast.2
    exact ⟨b, rfl, Nat.le_antisymm hfirst.1 hlow, by omega⟩
  | b :: c :: r, hfree =>
    refine absurd ⟨?_, ?_, hg.address_eq_stop h.toRepresents⟩ (apart_cons_cons.1 h.apart).1
    · exact hfree b (by simp)
    · exact hfree c (by simp)

/-- On a heap in order any live pointers can be released in any two orders, and the arenas
agree afterwards.  If they were all, each longest stretch of blocks without gaps has become one
free block, which is the whole heap if it was used by a program that never moved the mark. -/
theorem Orderly.frees_commute (horderly : a.Orderly hs) (hnodup : ps.Nodup)
    (hps : ∀ p ∈ ps, p ∈ a.pointers) (hperm : qs.Perm ps) :
    ∃ a₁ a₂ hs', forM ps free a = .ok () a₁ ∧ forM qs free a = .ok () a₂ ∧
      a₁.Orderly hs' ∧ a₁.heap.brk = a.heap.brk ∧ a₁.Agrees a₂ hs' ∧
      ((∀ p ∈ a.pointers, p ∈ ps) →
        List.Forall₂ (Spans x) (stretches x (hs.map Header.block)) (hs'.map Header.block) ∧
        ∀ s : Session x, Session.Reachable a.heap.base a.heap.limit s → s.arena = a →
          s.granted = ∅ → a.heap.base < a.heap.brk →
            ∃ b, hs' = [b] ∧ b.free = true ∧ b.address = a.heap.base ∧
              b.stop x = a.heap.brk) := by
  obtain ⟨bs, h, rfl⟩ := horderly.exists_consistent
  have hqs : ∀ p ∈ qs, p ∈ a.pointers := fun p hp => hps p (hperm.mem_iff.1 hp)
  obtain ⟨_, a₁, hrun₁, h₁, hbrk₁, hevolves₁⟩ := h.yields_forM_free hnodup hps
  obtain ⟨_, a₂, hrun₂, h₂, hbrk₂, hevolves₂⟩ :=
    h.yields_forM_free (hperm.nodup_iff.2 hnodup) hqs
  -- The lists speak of the same set, so the blocks are the same.
  rw [Block.releaseIn_perm hperm] at h₂
  have htwin : Twin a a bs := ⟨h, h, rfl, rfl, rfl⟩
  have hagrees := (htwin.evolve hevolves₁ hevolves₂ (hbrk₂.trans hbrk₁.symm) h₁ h₂).agrees
    (hevolves₂.policy_eq.trans hevolves₁.policy_eq.symm)
  refine ⟨a₁, a₂, _, hrun₁, hrun₂, h₁.orderly, hbrk₁, hagrees, fun hall => ?_⟩
  have hfree : ∀ b ∈ bs, (b.releaseIn x ps).free = true := by
    intro b hb
    cases hstate : b.free with
    | true => rw [Block.releaseIn_of_free hstate, hstate]
    | false =>
      have hin := hall _ (h.mem_pointers.2 ⟨b, mem_live.2 ⟨hb, hstate⟩, rfl⟩)
      rw [Block.releaseIn, if_pos hin]
      rfl
  have hspans : List.Forall₂ (Spans x) (stretches x bs) _ := spans_coalesce_map hfree
  rw [map_block_headers, map_block_headers]
  refine ⟨hspans, fun s hs harena hgranted hbrk => ?_⟩
  have hgapless : a.Gapless bs := harena ▸ hs.gapless h.window hgranted (harena ▸ h)
  have hgapless₁ : a₁.Gapless (coalesce x (bs.map (Block.releaseIn x ps))) := by
    refine ⟨hbrk₁.symm ▸ hgapless.brk_dvd, ?_⟩
    rw [region_coalesce, region_map_releaseIn, hgapless.region_eq, hevolves₁.base_eq, hbrk₁]
  have hfree₁ : ∀ b ∈ coalesce x (bs.map (Block.releaseIn x ps)), b.free = true := by
    intro b hb
    by_contra hlive
    have hin := mem_live.2 ⟨hb, Bool.not_eq_true _ ▸ hlive⟩
    rw [live_coalesce] at hin
    obtain ⟨c, hc, rfl⟩ := List.mem_map.1 (mem_live.1 hin).1
    exact hlive (hfree c hc)
  rw [← hevolves₁.base_eq, ← hbrk₁] at hbrk ⊢
  obtain ⟨b, hb, haddress, hstop⟩ := hgapless₁.eq_singleton h₁ hfree₁ hbrk
  refine ⟨b.header null null, ?_, ?_, haddress, hstop⟩
  · rw [hb]
    rfl
  · exact hfree₁ b (by rw [hb]; exact List.mem_singleton_self b)

/-- Three allocations in a row. -/
def abreast : Session .rv32 :=
  (((Session.fresh 0x1000 0x2000 false (Memory.empty .rv32 true)).perform (.malloc 8)).perform
    (.malloc 8)).perform (.malloc 8)

/-- Whether the middle one is released first or last, one free block is left. -/
theorem frees_commute_abreast :
    ∃ a₁ a₂ b, forM [0x1010, 0x1040, 0x1028] free abreast.arena = .ok () a₁ ∧
      forM [0x1028, 0x1010, 0x1040] free abreast.arena = .ok () a₂ ∧ a₁.Agrees a₂ [b] ∧
      b.free = true ∧ b.address = 0x1000 ∧ b.stop .rv32 = 0x1048 := by
  have hw : Window .rv32 0x1000 0x2000 := by constructor <;> decide
  have hreachable : Session.Reachable 0x1000 0x2000 abreast :=
    ((((Session.reachable_fresh (x := .rv32) 0x1000 0x2000 false (Memory.empty .rv32 true)).perform
      (.malloc 8)).perform (.malloc 8)).perform (.malloc 8))
  have hblocks : abreast.arena.blocks = .ok [⟨0x1000, 8, false, 0x1018, 0⟩,
      ⟨0x1018, 8, false, 0x1030, 0x1000⟩, ⟨0x1030, 8, false, 0, 0x1018⟩] := by
    decide +kernel
  have horderly := hreachable.orderly hw hblocks
  have hall (p : Nat) : p ∈ abreast.arena.pointers ↔ p ∈ [0x1010, 0x1040, 0x1028] := by
    rw [horderly.mem_pointers]
    simp [Header.payload, headerSize, Xlen.bytes]
    omega
  have hbase : abreast.arena.heap.base = 0x1000 := by decide +kernel
  have hlimit : abreast.arena.heap.limit = 0x2000 := by decide +kernel
  have hbrk : abreast.arena.heap.brk = 0x1048 := by decide +kernel
  have hperm : [0x1028, 0x1010, 0x1040].Perm [0x1010, 0x1040, 0x1028] := by decide
  obtain ⟨a₁, a₂, hs', hrun₁, hrun₂, -, -, hagrees, hwhole⟩ :=
    horderly.frees_commute (by decide) (fun p hp => (hall p).2 hp) hperm
  have hgranted : abreast.granted = ∅ := by
    have hmalloc (s : Session .rv32) : (s.perform (.malloc 8)).granted = s.granted :=
      s.granted_perform fun _ => Request.noConfusion
    exact (hmalloc _).trans ((hmalloc _).trans (hmalloc _))
  obtain ⟨b, rfl, hfree, haddress, hstop⟩ := (hwhole fun p hp => (hall p).1 hp).2 abreast
    (hbase.symm ▸ hlimit.symm ▸ hreachable) rfl hgranted (hbase ▸ hbrk ▸ by decide)
  exact ⟨a₁, a₂, b, hrun₁, hrun₂, hagrees, hfree, haddress.trans hbase, hstop.trans hbrk⟩

end Arena

end Hart
