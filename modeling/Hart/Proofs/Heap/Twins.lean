/-
Runs that differ in memory only.

Two programs make the same requests on heaps over the same window.  Their memories may have
been different from the start, each stores what it likes where it may, and each has its
allocations filled with zeros or not as it likes.

* `Allocated.unique`, `Resized.unique` — the blocks decide in which way a request goes;
* `Twin.run` — so on arenas with the same blocks a request is answered alike, and leaves the
  same blocks;
* `decisions_agree` — in two runs of the same requests every answer and every error is the
  same, and so are blocks, mark and count after each request.

Design notes: the blocks are read from a memory that holds the program's own bytes too.  What
keeps the two apart is `Session.Sound`, which each of the two runs has for itself.
-/
import Hart.Proofs.Heap.Session

namespace Hart

variable {x : Xlen}

/-! ### Ways that are determined -/

/-- The first member of a list with a property is in one place only. -/
theorem eq_of_first {P : Block → Prop} {l l' r r' : List Block} {b b' : Block}
    (hl : ∀ c ∈ l, ¬ P c) (hb : P b) (hl' : ∀ c ∈ l', ¬ P c) (hb' : P b')
    (heq : l ++ b :: r = l' ++ b' :: r') : l = l' ∧ b = b' ∧ r = r' := by
  induction l generalizing l' with
  | nil =>
    cases l' with
    | nil =>
      obtain ⟨rfl, rfl⟩ := List.cons.inj heq
      exact ⟨rfl, rfl, rfl⟩
    | cons d l' =>
      obtain ⟨rfl, -⟩ := List.cons.inj heq
      exact absurd hb (hl' b List.mem_cons_self)
  | cons c l ih =>
    cases l' with
    | nil =>
      obtain ⟨rfl, -⟩ := List.cons.inj heq
      exact absurd hb' (hl c List.mem_cons_self)
    | cons d l' =>
      obtain ⟨rfl, hrest⟩ := List.cons.inj heq
      obtain ⟨rfl, hbr⟩ := ih (fun e he => hl e (List.mem_cons_of_mem c he))
        (fun e he => hl' e (List.mem_cons_of_mem c he)) hrest
      exact ⟨rfl, hbr⟩

/-- The blocks, the mark and the limit decide what an allocation makes of them. -/
theorem Allocated.unique {need limit brk brk₁ brk₂ : Nat} {bs bs₁ bs₂ : List Block}
    {b₁ b₂ : Block} (h₁ : Allocated x need limit bs brk bs₁ brk₁ b₁)
    (h₂ : Allocated x need limit bs brk bs₂ brk₂ b₂) : bs₁ = bs₂ ∧ brk₁ = brk₂ ∧ b₁ = b₂ := by
  generalize hbs : bs = cs at h₂
  cases h₁ with
  | @reuse l r b _ hl hb =>
    cases h₂ with
    | reuse hl' hb' =>
      obtain ⟨rfl, rfl, rfl⟩ := eq_of_first hl hb hl' hb' hbs
      exact ⟨rfl, rfl, rfl⟩
    | extend hnone | append hnone => exact absurd hb (hnone b (by simp [← hbs]))
  | @extend l b _ hnone hfree hstop hlimit =>
    cases h₂ with
    | reuse hl' hb' => exact absurd hb' (hnone _ (by simp [hbs]))
    | extend hnone' hfree' hstop' hlimit' =>
      obtain ⟨rfl, hlast⟩ := List.append_inj' hbs rfl
      obtain ⟨rfl, -⟩ := List.cons.inj hlast
      exact ⟨rfl, rfl, rfl⟩
    | append hnone' hlast' => exact absurd ⟨hfree, hstop⟩ (hlast' l b hbs.symm)
  | append hnone hlast haddress hlimit =>
    cases h₂ with
    | reuse hl' hb' => exact absurd hb' (hnone _ (by simp [hbs]))
    | extend hnone' hfree' hstop' => exact absurd ⟨hfree', hstop'⟩ (hlast _ _ hbs)
    | append hnone' hlast' haddress' hlimit' =>
      obtain rfl := Option.some.inj (haddress.symm.trans haddress')
      obtain rfl := hbs
      exact ⟨rfl, rfl, rfl⟩

/-- They decide as well what becomes of a block that is resized in place. -/
theorem Resized.unique {need limit low brk brk₁ brk₂ : Nat} {bs bs₁ bs₂ : List Block}
    {b b₁ b₂ : Block} (hplaced : Placed x low bs brk)
    (h₁ : Resized x need limit bs brk b bs₁ brk₁ b₁)
    (h₂ : Resized x need limit bs brk b bs₂ brk₂ b₂) : bs₁ = bs₂ ∧ brk₁ = brk₂ ∧ b₁ = b₂ := by
  generalize hbs : bs = cs at h₂
  cases h₁ with
  | shrink hle =>
    cases h₂ with
    | shrink hle' =>
      obtain ⟨rfl, rfl⟩ := hplaced.eq_of_append_cons_eq hbs
      exact ⟨rfl, rfl, rfl⟩
    | absorb hlt | grow hlt => exact absurd hle (Nat.not_le.2 hlt)
  | absorb hlt habsorbs =>
    cases h₂ with
    | shrink hle => exact absurd hle (Nat.not_le.2 hlt)
    | absorb hlt' habsorbs' =>
      obtain ⟨rfl, hr⟩ := hplaced.eq_of_append_cons_eq hbs
      obtain ⟨rfl, rfl⟩ := List.cons.inj hr
      exact ⟨rfl, rfl, rfl⟩
    | grow => exact absurd (hplaced.eq_of_append_cons_eq hbs).2 (List.cons_ne_nil _ _)
  | grow hlt hstop hlimit =>
    cases h₂ with
    | shrink hle => exact absurd hle (Nat.not_le.2 hlt)
    | absorb => exact absurd (hplaced.eq_of_append_cons_eq hbs).2.symm (List.cons_ne_nil _ _)
    | grow hlt' hstop' hlimit' =>
      obtain ⟨rfl, -⟩ := hplaced.eq_of_append_cons_eq hbs
      exact ⟨rfl, rfl, rfl⟩

namespace Arena

variable {a a' u u' : Arena x} {bs bs' l r : List Block} {b : Block} {size q q' : Nat}

/-! ### Arenas with the same blocks -/

/-- The two arenas have the same window and mark, and the blocks `bs` in it. -/
structure Twin (a u : Arena x) (bs : List Block) : Prop where
  left : a.Consistent bs
  right : u.Consistent bs
  base_eq : u.heap.base = a.heap.base
  limit_eq : u.heap.limit = a.heap.limit
  brk_eq : u.heap.brk = a.heap.brk

/-- The two replies say the same, and leave arenas with the same blocks. -/
def Agree (r r' : Reply x) : Prop :=
  verdict r = verdict r' ∧ ∃ bs, Twin (Reply.arena r) (Reply.arena r') bs

namespace Twin

theorem roundSize?_eq (h : Twin a u bs) (size : Nat) :
    u.heap.roundSize? size = a.heap.roundSize? size := by
  rw [Heap.roundSize?, Heap.roundSize?, h.base_eq, h.limit_eq]

theorem agree_ok (h : Twin a u bs) (q : Nat) : Agree (.ok q a) (.ok q u) :=
  ⟨rfl, bs, h⟩

theorem agree_error (h : Twin a u bs) (e : HeapError) : Agree (.error e a) (.error e u) :=
  ⟨rfl, bs, h⟩

/-- Twins that evolve into arenas with the same blocks and mark stay twins. -/
theorem evolve (h : Twin a u bs) {R S : Set Nat} (ha : Evolves R a a') (hu : Evolves S u u')
    (hbrk : u'.heap.brk = a'.heap.brk) (hleft : a'.Consistent bs') (hright : u'.Consistent bs') :
    Twin a' u' bs' :=
  ⟨hleft, hright, hu.base_eq.trans (h.base_eq.trans ha.base_eq.symm),
    hu.limit_eq.trans (h.limit_eq.trans ha.limit_eq.symm), hbrk⟩

/-- An allocation is answered alike, filled with zeros or not. -/
theorem answered (h : Twin a u bs) {zeroed zeroed' : Bool} (ha : Answered size zeroed a bs q a')
    (hu : Answered size zeroed' u bs q' u') : Agree (.ok q a') (.ok q' u') := by
  cases ha with
  | @granted need _ bs₁ b₁ hsize hround hallocated hconsistent hevolves =>
    cases hu with
    | granted hsize' hround' hallocated' hconsistent' hevolves' =>
      rw [h.roundSize?_eq] at hround'
      obtain rfl := Option.some.inj (hround.symm.trans hround')
      rw [h.limit_eq, h.brk_eq] at hallocated'
      obtain ⟨rfl, hbrk, rfl⟩ := hallocated.unique hallocated'
      exact (h.evolve hevolves hevolves' hbrk.symm hconsistent hconsistent').agree_ok _
    | refused hnone =>
      rw [← h.limit_eq, ← h.brk_eq] at hallocated
      exact absurd hallocated (hnone need hsize (h.roundSize?_eq size ▸ hround) _ _ _)
  | refused hnone =>
    cases hu with
    | @granted need _ bs₁ b₁ hsize hround hallocated =>
      rw [h.limit_eq, h.brk_eq] at hallocated
      exact absurd hallocated (hnone need hsize (h.roundSize?_eq size ▸ hround) _ _ _)
    | refused => exact h.agree_ok null

/-- A resize goes the same way, or neither has a way to go. -/
theorem reallocated (h : Twin a u bs) (ha : Reallocated size a bs b q a')
    (hu : Reallocated size u bs b q' u') : Agree (.ok q a') (.ok q' u') := by
  have hround (need : Nat) :
      u.heap.roundSize? size = some need ↔ a.heap.roundSize? size = some need := by
    rw [h.roundSize?_eq]
  cases ha with
  | @inPlace need _ bs₁ b₁ hsize hneed hresized hconsistent hevolves =>
    cases hu with
    | inPlace hsize' hneed' hresized' hconsistent' hevolves' =>
      obtain rfl := Option.some.inj (hneed.symm.trans ((hround _).1 hneed'))
      rw [h.limit_eq, h.brk_eq] at hresized'
      obtain ⟨rfl, hbrk, rfl⟩ := hresized.unique h.left.placed hresized'
      exact (h.evolve hevolves hevolves' hbrk.symm hconsistent hconsistent').agree_ok _
    | moved hsize' hneed' hnot =>
      obtain rfl := Option.some.inj (hneed.symm.trans ((hround _).1 hneed'))
      rw [h.limit_eq, h.brk_eq] at hnot
      exact absurd hresized (hnot _ _ _)
    | refused hnone =>
      have hnot := (hnone need hsize ((hround need).2 hneed)).1
      rw [h.limit_eq, h.brk_eq] at hnot
      exact absurd hresized (hnot _ _ _)
  | @moved need _ l r b₁ hsize hneed hnot hallocated hconsistent hevolves =>
    cases hu with
    | inPlace hsize' hneed' hresized' =>
      obtain rfl := Option.some.inj (hneed.symm.trans ((hround _).1 hneed'))
      rw [h.limit_eq, h.brk_eq] at hresized'
      exact absurd hresized' (hnot _ _ _)
    | moved hsize' hneed' hnot' hallocated' hconsistent' hevolves' =>
      obtain rfl := Option.some.inj (hneed.symm.trans ((hround _).1 hneed'))
      rw [h.limit_eq, h.brk_eq] at hallocated'
      obtain ⟨hsplit, hbrk, rfl⟩ := hallocated.unique hallocated'
      obtain ⟨hpos, hdvd, -, -⟩ := Heap.roundSize?_spec hsize hneed
      obtain ⟨rfl, rfl⟩ := (hallocated.placed h.left.placed hpos hdvd).eq_of_append_cons_eq hsplit
      exact (h.evolve hevolves hevolves' hbrk.symm hconsistent hconsistent').agree_ok _
    | refused hnone =>
      have hnot' := (hnone need hsize ((hround need).2 hneed)).2
      rw [h.limit_eq, h.brk_eq] at hnot'
      exact absurd hallocated (hnot' _ _ _)
  | refused hnone =>
    cases hu with
    | @inPlace need _ _ _ hsize hneed hresized =>
      rw [h.limit_eq, h.brk_eq] at hresized
      exact absurd hresized ((hnone need hsize ((hround need).1 hneed)).1 _ _ _)
    | @moved need _ _ _ _ hsize hneed hnot hallocated =>
      rw [h.limit_eq, h.brk_eq] at hallocated
      exact absurd hallocated ((hnone need hsize ((hround need).1 hneed)).2 _ _ _)
    | refused => exact h.agree_ok null

theorem malloc (h : Twin a u bs) (size : Nat) :
    Agree (AllocM.malloc size a) (AllocM.malloc size u) := by
  obtain ⟨q, a', hrun, ha⟩ := h.left.yields_malloc size
  obtain ⟨q', u', hrun', hu⟩ := h.right.yields_malloc size
  rw [hrun, hrun']
  exact h.answered ha hu

theorem calloc (h : Twin a u bs) (size : Nat) :
    Agree (AllocM.calloc size a) (AllocM.calloc size u) := by
  obtain ⟨q, a', hrun, ha⟩ := h.left.yields_allocate size true
  obtain ⟨q', u', hrun', hu⟩ := h.right.yields_allocate size true
  rw [AllocM.calloc, hrun, hrun']
  exact h.answered ha hu

theorem realloc (h : Twin a u bs) (p size : Nat) :
    Agree (AllocM.realloc p size a) (AllocM.realloc p size u) := by
  by_cases hnull : p = null
  · rw [hnull, realloc_null]
    exact h.malloc size
  by_cases hlive : ∃ b ∈ live bs, b.payload x = p
  · obtain ⟨b, hb, rfl⟩ := hlive
    obtain ⟨hmem, hfree⟩ := mem_live.1 hb
    obtain ⟨l, r, rfl⟩ := List.append_of_mem hmem
    obtain ⟨q, a', hrun, ha⟩ := h.left.yields_realloc hfree size
    obtain ⟨q', u', hrun', hu⟩ := h.right.yields_realloc hfree size
    rw [hrun, hrun']
    exact h.reallocated ha hu
  · have hnone : ∀ b ∈ live bs, b.payload x ≠ p := fun b hb hp => hlive ⟨b, hb, hp⟩
    rw [h.left.realloc_eq_error hnull hnone, h.right.realloc_eq_error hnull hnone]
    exact h.agree_error _

theorem free (h : Twin a u bs) (p : Nat) :
    Agree ((Request.free p).run a) ((Request.free p).run u) := by
  rw [Request.run_free, Request.run_free]
  by_cases hnull : p = null
  · rw [hnull]
    exact h.agree_ok null
  by_cases hlive : ∃ b ∈ live bs, b.payload x = p
  · obtain ⟨b, hb, rfl⟩ := hlive
    obtain ⟨hmem, hfree⟩ := mem_live.1 hb
    obtain ⟨l, r, rfl⟩ := List.append_of_mem hmem
    obtain ⟨_, a', hrun, hleft, hbrk, hevolves⟩ := h.left.yields_free hfree
    obtain ⟨_, u', hrun', hright, hbrk', hevolves'⟩ := h.right.yields_free hfree
    rw [hrun, hrun']
    have hmark : u'.heap.brk = a'.heap.brk := hbrk'.trans (h.brk_eq.trans hbrk.symm)
    exact (h.evolve hevolves hevolves' hmark hleft hright).agree_ok null
  · have hnone : ∀ b ∈ live bs, b.payload x ≠ p := fun b hb hp => hlive ⟨b, hb, hp⟩
    rw [h.left.free_eq_error hnull hnone, h.right.free_eq_error hnull hnone]
    exact h.agree_error _

theorem sbrk (h : Twin a u bs) (increment : Int) :
    Agree (AllocM.sbrk increment a) (AllocM.sbrk increment u) := by
  by_cases hfits : 0 ≤ increment ∧ a.heap.brk + increment.toNat ≤ a.heap.limit
  · have hfits' : 0 ≤ increment ∧ u.heap.brk + increment.toNat ≤ u.heap.limit := by
      rw [h.brk_eq, h.limit_eq]
      exact hfits
    have hraised {c : Arena x} (hc : c.Consistent bs)
        (hroom : c.heap.brk + increment.toNat ≤ c.heap.limit) :
        Consistent { c with heap := { c.heap with brk := c.heap.brk + increment.toNat } } bs :=
      hc.withHeap rfl rfl (Nat.le_add_right _ _) hroom ⟨rfl, rfl⟩ rfl
    rw [AllocM.sbrk_of_le hfits, AllocM.sbrk_of_le hfits', h.brk_eq]
    have htwin := Twin.mk (hraised h.left hfits.2) (hraised h.right hfits'.2) h.base_eq h.limit_eq
      (congrArg (· + increment.toNat) h.brk_eq)
    rw [h.brk_eq] at htwin
    exact htwin.agree_ok _
  · have hfits' : ¬ (0 ≤ increment ∧ u.heap.brk + increment.toNat ≤ u.heap.limit) := by
      rw [h.brk_eq, h.limit_eq]
      exact hfits
    rw [AllocM.sbrk_of_not_le hfits, AllocM.sbrk_of_not_le hfits']
    exact h.agree_ok _

/-- A change of the filling policy leaves the blocks as they are. -/
theorem setAlwaysCalloc (h : Twin a u bs) (enabled : Bool) :
    Agree ((Request.setAlwaysCalloc enabled).run a) ((Request.setAlwaysCalloc enabled).run u) := by
  have hkept {c : Arena x} (hc : c.Consistent bs) :
      Consistent { c with heap := { c.heap with alwaysCalloc := enabled } } bs :=
    hc.withHeap rfl rfl (Nat.le_refl _) hc.brk_le ⟨rfl, rfl⟩ rfl
  exact (Twin.mk (hkept h.left) (hkept h.right) h.base_eq h.limit_eq h.brk_eq).agree_ok null

/-- A request is answered alike on both arenas, and leaves the same blocks. -/
theorem run (h : Twin a u bs) (r : Request) : Agree (r.run a) (r.run u) := by
  cases r with
  | malloc size => exact h.malloc size
  | calloc size => exact h.calloc size
  | realloc p size => exact h.realloc p size
  | free p => exact h.free p
  | sbrk increment => exact h.sbrk increment
  | setAlwaysCalloc enabled => exact h.setAlwaysCalloc enabled

end Twin

end Arena

namespace Session

variable {base limit : Nat} {s s' t t' : Session x} {bs : List Block}

/-! ### Runs of the same requests -/

/-- What a program does between its requests: it stores where it may, or changes the filling
policy. -/
inductive Aside : Session x → Session x → Prop
  | store (s : Session x) (address : Nat) (v : UInt8) (hwritable : s.Writable (x.wrap address)) :
      Aside s { s with
        arena := { s.arena with memory := s.arena.memory.storeByte address v } }
  | policy (s : Session x) (enabled : Bool) : Aside s (s.perform (.setAlwaysCalloc enabled))

/-- The session comes about from a fresh heap over the window by these requests, which were
answered so. -/
inductive Ran (base limit : Nat) :
    List Request → List (Except HeapError Nat) → Session x → Prop
  | fresh (alwaysCalloc : Bool) (m : Memory x) :
      Ran base limit [] [] (fresh base limit alwaysCalloc m)
  | request {rs : List Request} {vs : List (Except HeapError Nat)} {s : Session x}
      (hran : Ran base limit rs vs s) (r : Request) :
      Ran base limit (rs ++ [r]) (vs ++ [verdict (r.run s.arena)]) (s.perform r)
  | aside {rs : List Request} {vs : List (Except HeapError Nat)} {s s' : Session x}
      (hran : Ran base limit rs vs s) (haside : Aside s s') : Ran base limit rs vs s'

/-- The two sessions are sound for the same blocks, and have the same mark. -/
def Matched (base limit : Nat) (s t : Session x) : Prop :=
  ∃ bs, s.Sound base limit bs ∧ t.Sound base limit bs ∧ t.arena.heap.brk = s.arena.heap.brk

namespace Matched

theorem symm (h : Matched base limit s t) : Matched base limit t s := by
  obtain ⟨bs, hs, ht, hbrk⟩ := h
  exact ⟨bs, ht, hs, hbrk.symm⟩

theorem twin (hs : s.Sound base limit bs) (ht : t.Sound base limit bs)
    (hbrk : t.arena.heap.brk = s.arena.heap.brk) : Arena.Twin s.arena t.arena bs :=
  ⟨hs.consistent, ht.consistent, ht.base_eq.trans hs.base_eq.symm,
    ht.limit_eq.trans hs.limit_eq.symm, hbrk⟩

/-- A request is answered alike in both sessions, and they stay matched. -/
theorem perform (h : Matched base limit s t) (r : Request) :
    verdict (r.run s.arena) = verdict (r.run t.arena) ∧
      Matched base limit (s.perform r) (t.perform r) := by
  obtain ⟨bs, hs, ht, hbrk⟩ := h
  obtain ⟨hverdict, bs', htwin⟩ := (twin hs ht hbrk).run r
  rw [← arena_perform, ← arena_perform] at htwin
  -- Each session is sound for some blocks, and those are the ones its arena has.
  obtain ⟨bs₁, hs'⟩ := (hs.served r).sound
  obtain ⟨bs₂, ht'⟩ := (ht.served r).sound
  obtain rfl : bs₁ = bs' := hs'.consistent.unique htwin.left.toRepresents
  obtain rfl : bs₂ = bs₁ := ht'.consistent.unique htwin.right.toRepresents
  exact ⟨hverdict, bs₂, hs', ht', htwin.brk_eq⟩

/-- What one program does aside does not part the two. -/
theorem aside (h : Matched base limit s t) (haside : Aside s s') : Matched base limit s' t := by
  obtain ⟨bs, hs, ht, hbrk⟩ := h
  cases haside with
  | store address v hwritable => exact ⟨bs, hs.store v hwritable, ht, hbrk⟩
  | policy enabled =>
    obtain ⟨bs', hs'⟩ := (hs.served_setAlwaysCalloc enabled).sound
    have hkept := hs.consistent.withHeap (k := { s.arena.heap with alwaysCalloc := enabled }) rfl
      rfl (Nat.le_refl _) hs.consistent.brk_le ⟨rfl, rfl⟩ rfl
    obtain rfl : bs' = bs := hs'.consistent.unique hkept.toRepresents
    exact ⟨bs', hs', ht, hbrk⟩

end Matched

variable {rs : List Request} {vs vs' : List (Except HeapError Nat)}

/-- Two runs of the same requests are answered alike, and match. -/
theorem Ran.matched (hw : Window x base limit) (hs : Ran base limit rs vs s)
    (ht : Ran base limit rs vs' t) : vs = vs' ∧ Matched base limit s t := by
  induction hs generalizing vs' t with
  | fresh alwaysCalloc m =>
    generalize hrs : ([] : List Request) = rs at ht
    induction ht with
    | fresh alwaysCalloc' m' => exact ⟨rfl, [], sound_fresh hw _ m, sound_fresh hw _ m', rfl⟩
    | request => simp at hrs
    | aside hran haside ih =>
      obtain ⟨hvs, hmatched⟩ := ih hrs
      exact ⟨hvs, (hmatched.symm.aside haside).symm⟩
  | aside hran haside ih =>
    obtain ⟨hvs, hmatched⟩ := ih ht
    exact ⟨hvs, hmatched.aside haside⟩
  | @request rs vs s hran r ih =>
    -- The other run ends with the same request and what was done aside after it.
    generalize hrs : rs ++ [r] = rs' at ht
    induction ht with
    | fresh => simp at hrs
    | request hran' r' =>
      obtain ⟨rfl, hlast⟩ := List.append_inj' hrs rfl
      obtain rfl := (List.cons.inj hlast).1
      obtain ⟨rfl, hmatched⟩ := ih hran'
      obtain ⟨hverdict, hperformed⟩ := hmatched.perform r
      exact ⟨by rw [hverdict], hperformed⟩
    | aside hran' haside ih' =>
      obtain ⟨hvs, hmatched⟩ := ih' hrs
      exact ⟨hvs, (hmatched.symm.aside haside).symm⟩

/-- In two runs of the same requests over the same window, whatever the memories were and
whatever is stored or filled on either side, every request has the same answer or the same
error, and the blocks, the mark and the count of live allocations agree. -/
theorem decisions_agree (hw : Window x base limit) (hs : Ran base limit rs vs s)
    (ht : Ran base limit rs vs' t) :
    vs = vs' ∧ (∃ hs, s.arena.blocks = .ok hs ∧ t.arena.blocks = .ok hs) ∧
      s.arena.heap.brk = t.arena.heap.brk ∧ s.arena.heap.active = t.arena.heap.active := by
  obtain ⟨hvs, bs, hs, ht, hbrk⟩ := hs.matched hw ht
  have hblocks := hs.consistent.blocks_eq
  have hactive := hs.consistent.active_eq.trans ht.consistent.active_eq.symm
  exact ⟨hvs, ⟨_, hblocks, ht.consistent.blocks_eq⟩, hbrk.symm, hactive⟩

/-- A heap over a memory that is not blank. -/
def dirty : Session .rv32 :=
  fresh 0x1000 0x1100 false ((Memory.empty .rv32 true).storeByte 0x1010 0xAB)

/-- A heap over a blank memory, whose allocations are filled with zeros. -/
def filled : Session .rv32 :=
  fresh 0x1000 0x1100 true (Memory.empty .rv32 false)

/-- The two hand out the same block with different contents, and move it to the same place. -/
theorem decisions_agree_filled : ∃ vs vs',
    Ran 0x1000 0x1100 [.malloc 16, .realloc 0x1010 64] vs
      ((dirty.perform (.malloc 16)).perform (.realloc 0x1010 64)) ∧
    Ran 0x1000 0x1100 [.malloc 16, .realloc 0x1010 64] vs'
      ((filled.perform (.malloc 16)).perform (.realloc 0x1010 64)) ∧
    (dirty.perform (.malloc 16)).arena.memory.loadByte 0x1010 = 0xAB ∧
    (filled.perform (.malloc 16)).arena.memory.loadByte 0x1010 = 0 ∧ vs = vs' := by
  have hw : Window .rv32 0x1000 0x1100 := by constructor <;> decide
  have hdirty : Ran 0x1000 0x1100 [] [] dirty := .fresh false _
  have hfilled : Ran 0x1000 0x1100 [] [] filled := .fresh true _
  have hs := (hdirty.request (.malloc 16)).request (.realloc 0x1010 64)
  have ht := (hfilled.request (.malloc 16)).request (.realloc 0x1010 64)
  obtain ⟨hvs, -⟩ := decisions_agree hw hs ht
  exact ⟨_, _, hs, ht, by decide +kernel, by decide +kernel, hvs⟩

end Session

end Hart
