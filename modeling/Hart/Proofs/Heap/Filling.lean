/-
What is filled with zeros.

A heap may be told to fill every allocation.  Then a new allocation shows no byte of what lay
there before, up to the end of its block.  An allocation that is resized shows none either
where it moves, where it grows at the mark, and where it is cut down after taking in the free
block behind it.  But if that leaves too little to cut off, the block keeps up to a header
more than was asked for, and these last bytes are as they were, with whatever the free block
held.

* `Resized.gains` — what a block that is resized in place may gain;
* `Represents.yields_takeWhole` — taking in the block behind and cutting nothing off writes
  headers only;
* `Consistent.realloc_spares` — so no byte behind those asked for changes;
* `Arena.Filled` — the bytes that a resized allocation has gained;
* `Orderly.fills` — new and resized allocations on a heap in order that fills them.
-/
import Hart.Proofs.Heap.FirstFit

namespace Hart

open AllocM

variable {x : Xlen}

/-- A block that is resized in place gains nothing, or as much as was asked for, or the whole
block behind it when that leaves too little to cut off. -/
theorem Resized.gains {need limit brk brk' : Nat} {bs bs' : List Block} {b b' : Block}
    (h : Resized x need limit bs brk b bs' brk' b') :
    b'.size ≤ b.size ∨ b'.size = need ∨ ∃ l n r, bs = l ++ b :: n :: r ∧ b.size < need ∧
      Absorbs x need b n ∧ (b.absorb x n).size - need ≤ headerSize x ∧ b' = b.absorb x n := by
  cases h with
  | @shrink l r _ _ hle =>
    by_cases hspare : b.size - need ≤ headerSize x
    · left
      rw [cut_of_le hspare]
    · right; left
      rw [cut_of_lt (Nat.not_le.1 hspare)]
      rfl
  | @absorb l r _ n _ hlt habsorbs =>
    by_cases hspare : (b.absorb x n).size - need ≤ headerSize x
    · right; right
      rw [cut_of_le hspare]
      exact ⟨l, n, r, rfl, hlt, habsorbs, hspare, rfl⟩
    · right; left
      rw [cut_of_lt (Nat.not_le.1 hspare)]
      rfl
  | grow hlt hstop hlimit => exact .inr (.inl rfl)

namespace Arena

variable {a a' : Arena x} {bs bs' l r : List Block} {b n : Block} {need q size : Nat}

/-- Taking in the block behind and cutting nothing off writes the header that remains and the
one that comes next. -/
theorem Represents.yields_takeWhole (h : a.Represents (l ++ b :: n :: r))
    (habsorbs : Absorbs x need b n) (hspare : (b.absorb x n).size - need ≤ headerSize x) :
    Yields (unlink (n.header (front r null) b.address) >>= fun _ =>
        split ((b.absorb x n).header (front r null) (back null l)) need) a fun _ a' =>
      a'.Represents (l ++ b.absorb x n :: r) ∧
        Edited (b.headerBytes x ∪ headerRegion x r) a a' := by
  have hplaced := placed_absorb h.placed habsorbs.2.1
  have hunlink := h.around.yields_unlink (R := b.headerBytes x ∪ headerRegion x r)
    (d := b.absorb x n) rfl hplaced Set.subset_union_left Set.subset_union_right
  refine hunlink.bind ?_
  rintro - a₁ ⟨haround, hedited⟩
  refine (haround.yields_splitWhole (R := b.headerBytes x ∪ headerRegion x r) habsorbs.2.2 hspare
    Set.subset_union_left).imp ?_
  rintro - a₂ ⟨-, hrep, hedited'⟩
  exact ⟨hrep, hedited.trans hedited'⟩

/-- A resize that takes in the block behind whole changes headers, and fills the bytes that
were asked for. -/
theorem Consistent.yields_reallocWhole (h : a.Consistent (l ++ b :: n :: r))
    (hlive : b.free = false) (hsize : size ≠ 0) (hround : a.heap.roundSize? size = some need)
    (hlt : b.size < need) (habsorbs : Absorbs x need b n)
    (hspare : (b.absorb x n).size - need ≤ headerSize x) :
    Yields (realloc (b.payload x) size) a fun _ a' =>
      Evolves (b.headerBytes x ∪ headerRegion x r ∪ Set.Ico (b.stop x) (b.payload x + need))
        a a' := by
  have hne : b.payload x ≠ null := b.payload_ne_null x
  unfold realloc
  rw [if_neg hne, yields_bind, yields_inspect (h.allocated_of_mem hlive), yields_bind, yields_heap,
    if_neg hsize, hround]
  dsimp only
  rw [Block.header_size, if_neg (Nat.not_le.2 hlt)]
  unfold grow
  refine h.yields_absorbable?.bind ?_
  rintro v a₁ ⟨rfl, ⟨m, r', heq, -, rfl⟩ | ⟨rfl, hnone⟩⟩
  · cases heq
    dsimp only
    rw [← bind_assoc]
    refine (h.yields_takeWhole habsorbs hspare).bind ?_
    rintro - a₂ ⟨hrep, hedited⟩
    have hkept : b.absorb x n ∈ live (l ++ b.absorb x n :: r) := mem_live.2 ⟨by simp, hlive⟩
    refine (hrep.yields_zeroGrown hkept habsorbs.2.2).bind ?_
    rintro - a₃ ⟨-, -, hevolves, -⟩
    rw [yields_pure]
    exact (hedited.toEvolves.mono Set.subset_union_left).trans (hevolves.mono Set.subset_union_right)
  · exact absurd habsorbs (hnone n r rfl)

/-- So the bytes behind those that were asked for stay as the free block left them. -/
theorem Consistent.realloc_spares (h : a.Consistent (l ++ b :: n :: r)) (hlive : b.free = false)
    (hsize : size ≠ 0) (hround : a.heap.roundSize? size = some need) (hlt : b.size < need)
    (habsorbs : Absorbs x need b n) (hspare : (b.absorb x n).size - need ≤ headerSize x)
    (hrun : realloc (b.payload x) size a = .ok q a') {i : Nat} (hneed : need ≤ i)
    (hi : i < (b.absorb x n).size) :
    a'.memory.loadByte (b.payload x + i) = a.memory.loadByte (b.payload x + i) := by
  obtain ⟨v, a'', hrun', hevolves⟩ :=
    h.yields_reallocWhole hlive hsize hround hlt habsorbs hspare
  rw [hrun] at hrun'
  cases hrun'
  have hplaced := placed_absorb h.placed habsorbs.2.1
  obtain ⟨-, -, hr⟩ := placed_append_cons.1 hplaced
  have hstop : (b.absorb x n).stop x = b.payload x + (b.absorb x n).size := rfl
  have hspace := h.toLaid.stop_le_space (b := n) (by simp)
  rw [← stop_absorb habsorbs.2.1] at hspace
  refine hevolves.loadByte_eq _ (by omega) ?_
  -- The byte lies behind the header and what is filled, and before the next block.
  rintro ((hin | hin) | hin)
  · have hhigh := hin.2
    omega
  · have hlow := hr.le_of_mem_region (headerRegion_subset_region r hin)
    omega
  · have hhigh := hin.2
    omega

/-- The allocation `b` lives on at `q` and has gained zeros only, but for bytes that it took
in behind those of the `size` bytes that were asked for. -/
def Filled (size : Nat) (a : Arena x) (b : Header) (q : Nat) (a' : Arena x) : Prop :=
  ∃ hs', a'.blocks = .ok hs' ∧ ∃ b' ∈ hs', b'.free = false ∧ b'.payload x = q ∧
    (b.size < b'.size → b'.size ≤ wholeCells x size + headerSize x) ∧
      ∀ i, b.size ≤ i → i < b'.size → a'.memory.loadByte (q + i) =
        if q = b.payload x ∧ wholeCells x size ≤ i then a.memory.loadByte (q + i) else 0

theorem Consistent.fills_resized (h : a.Consistent bs) (hpolicy : a.heap.alwaysCalloc = true)
    {d : Header} (hd : d ∈ headers null bs) (hlive : d.free = false) (size : Nat) :
    ∃ q a', realloc (d.payload x) size a = .ok q a' ∧ (q ≠ null → Filled size a d q a') := by
  have hmem : d.block ∈ live bs := mem_live.2 ⟨block_mem_of_mem_headers hd, hlive⟩
  obtain ⟨l, r, hsplit⟩ := List.append_of_mem (mem_live.1 hmem).1
  obtain ⟨q, a', hrun, hway⟩ := (hsplit ▸ h).yields_realloc hlive size
  rw [← hsplit] at hway
  refine ⟨q, a', hrun, fun hq => ?_⟩
  cases hway with
  | refused hnone => exact absurd rfl hq
  | @inPlace need _ bs' b' hsize hround hresized hconsistent hevolves hzero =>
    have hneed := Heap.eq_wholeCells hround
    have hlive' : b'.free = false := hresized.free_eq.trans hlive
    have hpayload : b'.payload x = d.payload x := congrArg (· + headerSize x) hresized.address_eq
    obtain ⟨u, v, -, hv⟩ := hresized.exists_live hlive
    have hmem' : b' ∈ bs' := (mem_live.1 (hv ▸ List.mem_append_right u List.mem_cons_self)).1
    obtain ⟨e, he, rfl⟩ := exists_header_of_mem null hmem'
    have hgained (i : Nat) (hlow : d.size ≤ i) (hhigh : i < need) :
        a'.memory.loadByte (d.payload x + i) = 0 :=
      hzero hpolicy _ ⟨Nat.add_le_add_left hlow _, Nat.add_lt_add_left hhigh _⟩
    refine ⟨headers null bs', hconsistent.blocks_eq, e, he, hlive', hpayload, ?_, ?_⟩
    · intro hlt
      rw [← hneed]
      rcases hresized.gains with hle | heq | ⟨_, n, _, _, _, _, hspare, heq⟩
      · exact absurd hlt (Nat.not_lt.2 hle)
      · exact heq.le.trans (Nat.le_add_right _ _)
      · rw [← heq] at hspare
        show e.block.size ≤ _
        omega
    · intro i hlow hhigh
      rw [← hneed]
      by_cases hi : need ≤ i
      · rw [if_pos ⟨rfl, hi⟩]
        -- Only a block that was taken in whole leaves bytes behind those asked for.
        rcases hresized.gains with hle | heq | ⟨l, n, r, hbs, hlt, habsorbs, hspare, heq⟩
        · exact absurd hhigh (Nat.not_lt.2 (hle.trans hlow))
        · have hsame : e.size = need := heq
          omega
        · have hi' : i < (d.block.absorb x n).size := heq ▸ hhigh
          exact (hbs ▸ h).realloc_spares (b := d.block) hlive hsize hround hlt habsorbs hspare hrun
            hi hi'
      · rw [if_neg fun hboth => hi hboth.2]
        exact hgained i hlow (Nat.not_le.1 hi)
  | @moved need _ l r b' hsize hround hnot hallocated hconsistent hevolves hcopied hzero =>
    obtain ⟨hpos, hneed, -, -⟩ := Heap.roundSize?_spec hsize hround
    have hother := hallocated.payload_ne_of_mem_live h.placed hpos hmem
    have hplaced := hallocated.placed h.placed hpos hneed
    -- The new block is among those that are left when the old one is released.
    have hleft : b' ∈ live (released x l d.block r) := by
      rw [live_released, hplaced.mem_live_sides_iff hlive]
      exact ⟨hallocated.live_perm.mem_iff.2 List.mem_cons_self, hother⟩
    obtain ⟨e, he, rfl⟩ := exists_header_of_mem null (mem_live.1 hleft).1
    refine ⟨headers null (released x l d.block r), hconsistent.blocks_eq, e, he,
      (mem_live.1 hleft).2, rfl, fun _ => ?_, fun i hlow hhigh => ?_⟩
    · rw [← Heap.eq_wholeCells hround]
      exact hallocated.size_le
    · rw [if_neg fun hboth => hother hboth.1]
      exact hzero hpolicy _ ⟨Nat.add_le_add_left hlow _, Nat.add_lt_add_left hhigh _⟩

/-- On a heap in order that fills every allocation, a new one shows zeros up to the end of its
block, and a resized one has gained nothing but zeros, except for at most a header of bytes
behind those asked for, when it has taken in the free block behind it. -/
theorem Orderly.fills {hs : List Header} (horderly : a.Orderly hs)
    (hpolicy : a.heap.alwaysCalloc = true) :
    (∀ size, ∃ q a', malloc size a = .ok q a' ∧ realloc null size a = .ok q a' ∧
      (q ≠ null → ∃ hs', a'.blocks = .ok hs' ∧ ∃ b ∈ hs', b.free = false ∧ b.payload x = q ∧
        ∀ i < b.size, a'.memory.loadByte (q + i) = 0)) ∧
      ∀ b ∈ hs, b.free = false → ∀ size, ∃ q a', realloc (b.payload x) size a = .ok q a' ∧
        (q ≠ null → Filled size a b q a') := by
  obtain ⟨bs, h, rfl⟩ := horderly.exists_consistent
  constructor
  · intro size
    obtain ⟨q, a', hrun, hanswered⟩ := h.yields_malloc size
    refine ⟨q, a', hrun, hrun, fun hne => ?_⟩
    obtain ⟨hs', hafter, b, hb, hlive, hpayload, -, -, hzero⟩ := (hanswered.firstFit h).granted hne
    exact ⟨hs', hafter.blocks_eq, b, hb, hlive, hpayload, hzero hpolicy⟩
  · intro b hb hlive size
    exact h.fills_resized hpolicy hb hlive size

/-- An allocation with a free block behind it, that holds a byte of the allocation it was. -/
def stale : Arena .rv32 :=
  let s := ((Session.fresh 0x1000 0x2000 true (Memory.empty .rv32 true)).perform
    (.malloc 8)).perform (.malloc 16)
  let written := { s.arena with memory := s.arena.memory.storeByte 0x1034 0x0D }
  Reply.arena ((Request.free 0x1028).run written)

/-- The byte shows in the allocation when that has taken in the free block. -/
theorem fills_stale :
    ∃ a', realloc 0x1010 24 stale = .ok 0x1010 a' ∧
      Filled 24 stale ⟨0x1000, 8, false, 0x1018, 0⟩ 0x1010 a' ∧
      a'.memory.loadByte 0x1034 = 0x0D := by
  have hheap : stale.heap = ⟨0x1000, 0x2000, 0x1038, 0x1000, 0x1018, 1, true⟩ := by decide +kernel
  have horderly : stale.Orderly
      [⟨0x1000, 8, false, 0x1018, 0⟩, ⟨0x1018, 16, true, 0, 0x1000⟩] := by
    refine ⟨?_, by decide +kernel, ?_⟩
    · rw [hheap]
      constructor <;> decide
    · rw [hheap]
      constructor <;> decide
  obtain ⟨q, a', hrun, hfilled⟩ :=
    (horderly.fills (by rw [hheap])).2 ⟨0x1000, 8, false, 0x1018, 0⟩ List.mem_cons_self rfl 24
  have hpointer : realloc 0x1010 24 stale = .ok q a' := hrun
  have hanswer : verdict (realloc 0x1010 24 stale) = .ok 0x1010 := by decide +kernel
  have hbyte : (Reply.arena (realloc 0x1010 24 stale)).memory.loadByte 0x1034 = 0x0D := by
    decide +kernel
  rw [hpointer] at hanswer hbyte
  rw [verdict, Except.ok.injEq] at hanswer
  subst hanswer
  exact ⟨a', hpointer, hfilled (by decide), hbyte⟩

end Arena

end Hart
