/-
Runs of a program with its allocator.

A session is an arena together with what the program may rely on: the pointers
that it holds and the addresses that it was granted by moving the mark.  A step
of a session (`Session.Step`) is

* a request with any arguments, answered or refused, or
* a store of one byte to a live payload, to a granted address or to an address
  outside the window.

`Session.Reachable` closes a fresh heap, over any memory, under steps.  What every
step preserves is `Session.Sound`: the arena is consistent, the granted addresses
belong to no block, and the pointers held are the payloads of the allocated
blocks (`Sound.step`, `Session.Reachable.sound`).

Design notes: what one request does is said once, in `Session.Served`, which holds
whatever the request (`Sound.served`).
-/
import Mathlib.Data.Set.Lattice
import Mathlib.Logic.Relation
import Mathlib.Order.CompletePartialOrder
import Hart.Proofs.Heap.Resizing

namespace Hart

open AllocM Arena

variable {x : Xlen}

/-- What a program can ask of the allocator. -/
inductive Request where
  | malloc (size : Nat)
  | calloc (size : Nat)
  | realloc (pointer size : Nat)
  | free (pointer : Nat)
  | sbrk (increment : Int)
  | setAlwaysCalloc (enabled : Bool)
  deriving DecidableEq, Repr

namespace Request

/-- The request, run on an arena; it answers null when it has nothing to say. -/
def run : Request → AllocM x Nat
  | malloc size => AllocM.malloc size
  | calloc size => AllocM.calloc size
  | realloc pointer size => AllocM.realloc pointer size
  | free pointer => AllocM.free pointer >>= fun _ => pure null
  | sbrk increment => AllocM.sbrk increment
  | setAlwaysCalloc enabled =>
    modifyHeap (fun h => { h with alwaysCalloc := enabled }) >>= fun _ => pure null

theorem run_free (pointer : Nat) (a : Arena x) :
    (Request.free pointer).run a = match AllocM.free pointer a with
      | .ok _ a' => .ok null a'
      | .error e a' => .error e a' := by
  show EStateM.bind (AllocM.free pointer) (fun _ => pure null) a = _
  rw [EStateM.bind]
  cases AllocM.free pointer a <;> rfl

/-- The allocation that a request is about. -/
def pointer? : Request → Option Nat
  | realloc pointer _ => some pointer
  | free pointer => some pointer
  | _ => none

end Request

/-- The outcome of a request. -/
abbrev Reply (x : Xlen) := EStateM.Result HeapError (Arena x) Nat

/-- The arena after a request. -/
def Reply.arena : Reply x → Arena x
  | .ok _ a => a
  | .error _ a => a

/-- What a computation answers, or the error that it fails with. -/
def verdict {ε σ α : Type} : EStateM.Result ε σ α → Except ε α
  | .ok v _ => .ok v
  | .error e _ => .error e

/-- The addresses of the payload. -/
def Header.payloadBytes (x : Xlen) (b : Header) : Set Nat := Set.Ico (b.payload x) (b.stop x)

/-- A program at work on its heap. -/
structure Session (x : Xlen) where
  /-- Heap and memory. -/
  arena : Arena x
  /-- The addresses that the mark was moved over by request. -/
  granted : Set Nat
  /-- The pointers that were handed out and not released since. -/
  held : Set Nat

namespace AllocM

variable {a : Arena x} {increment : Int}

theorem sbrk_of_le (h : 0 ≤ increment ∧ a.heap.brk + increment.toNat ≤ a.heap.limit) :
    sbrk increment a =
      .ok a.heap.brk { a with heap := { a.heap with brk := a.heap.brk + increment.toNat } } := by
  have hyields : Yields (sbrk increment) a fun q a' => q = a.heap.brk ∧
      a' = { a with heap := { a.heap with brk := a.heap.brk + increment.toNat } } := by
    unfold sbrk
    simp only [yields_bind, yields_heap, h, and_self, if_true, yields_modifyHeap, yields_pure]
  obtain ⟨q, a', hrun, rfl, rfl⟩ := hyields
  exact hrun

theorem sbrk_of_not_le (h : ¬ (0 ≤ increment ∧ a.heap.brk + increment.toNat ≤ a.heap.limit)) :
    sbrk increment a = .ok x.maxAddress a := by
  have hyields : Yields (sbrk increment) a fun q a' => q = x.maxAddress ∧ a' = a := by
    unfold sbrk
    simp only [yields_bind, yields_heap, h, if_false, yields_pure, and_self]
  obtain ⟨q, a', hrun, rfl, rfl⟩ := hyields
  exact hrun

end AllocM

namespace Session

/-- A heap without blocks over any memory. -/
def fresh (base limit : Nat) (alwaysCalloc : Bool) (m : Memory x) : Session x :=
  ⟨⟨Heap.empty x base limit alwaysCalloc, m⟩, ∅, ∅⟩

/-- The session after a request was answered. -/
def after (s : Session x) : Request → Reply x → Session x
  | _, .error _ a => { s with arena := a }
  | .malloc _, .ok q a => { s with arena := a, held := s.held ∪ ({q} \ {null}) }
  | .calloc _, .ok q a => { s with arena := a, held := s.held ∪ ({q} \ {null}) }
  | .realloc p _, .ok q a =>
    { s with arena := a, held := if q = null then s.held else s.held \ {p} ∪ {q} }
  | .free p, .ok _ a => { s with arena := a, held := s.held \ {p} }
  | .sbrk _, .ok _ a =>
    { s with arena := a, granted := s.granted ∪ Set.Ico s.arena.heap.brk a.heap.brk }
  | .setAlwaysCalloc _, .ok _ a => { s with arena := a }

/-- The session after a request. -/
def perform (s : Session x) (r : Request) : Session x := s.after r (r.run s.arena)

@[simp] theorem arena_perform (s : Session x) (r : Request) :
    (s.perform r).arena = Reply.arena (r.run s.arena) := by
  unfold perform
  cases r.run s.arena with
  | error e a => cases r <;> rfl
  | ok q a => cases r <;> rfl

/-- A program that keeps to what it was given may write the address. -/
def Writable (s : Session x) (address : Nat) : Prop :=
  (∃ hs, s.arena.blocks = .ok hs ∧ ∃ b ∈ hs, b.free = false ∧ address ∈ b.payloadBytes x) ∨
    address ∈ s.granted ∨ address ∉ Set.Ico s.arena.heap.base s.arena.heap.limit

/-- A request, or a store of a byte. -/
inductive Step : Session x → Session x → Prop
  | request (s : Session x) (r : Request) : Step s (s.perform r)
  | store (s : Session x) (address : Nat) (v : UInt8) (hwritable : s.Writable (x.wrap address)) :
      Step s { s with
        arena := { s.arena with memory := s.arena.memory.storeByte address v } }

/-- The session comes about from a fresh heap over the window. -/
def Reachable (base limit : Nat) (s : Session x) : Prop :=
  ∃ alwaysCalloc m, Relation.ReflTransGen Step (fresh base limit alwaysCalloc m) s

theorem reachable_fresh (base limit : Nat) (alwaysCalloc : Bool) (m : Memory x) :
    Reachable base limit (fresh base limit alwaysCalloc m) :=
  ⟨alwaysCalloc, m, .refl⟩

theorem Reachable.perform {base limit : Nat} {s : Session x} (h : Reachable base limit s)
    (r : Request) : Reachable base limit (s.perform r) := by
  obtain ⟨alwaysCalloc, m, hrun⟩ := h
  exact ⟨alwaysCalloc, m, hrun.tail (.request s r)⟩

/-- The invariant of sessions, for the blocks of the arena. -/
structure Sound (base limit : Nat) (s : Session x) (bs : List Block) : Prop where
  consistent : s.arena.Consistent bs
  base_eq : s.arena.heap.base = base
  limit_eq : s.arena.heap.limit = limit
  granted_subset : s.granted ⊆ Set.Ico base s.arena.heap.brk
  granted_disjoint : Disjoint s.granted (region x bs)
  held_iff : ∀ p, p ∈ s.held ↔ ∃ b ∈ live bs, b.payload x = p

/-- The addresses that a request may write. -/
def touched (x : Xlen) (bs : List Block) (brk limit : Nat) (r : Request) : Set Nat :=
  scratch x bs ∪ Set.Ico brk limit ∪
    {c | ∃ b ∈ live bs, r.pointer? = some (b.payload x) ∧ c ∈ b.payloadBytes x}

/-- What a request does to a sound session: it is answered or refuses its pointer,
the session stays sound, and other addresses keep their bytes. -/
structure Served (base limit : Nat) (s : Session x) (bs : List Block) (r : Request)
    (reply : Reply x) : Prop where
  answered : (∃ q a, reply = .ok q a) ∨ ∃ p, reply = .error (.invalidPointer p) s.arena
  sound : ∃ bs', (s.after r reply).Sound base limit bs'
  loadByte_eq : ∀ c < x.space, c ∉ touched x bs s.arena.heap.brk limit r →
    reply.arena.memory.loadByte c = s.arena.memory.loadByte c

variable {base limit : Nat} {s s' : Session x} {bs bs' l r : List Block} {b b' : Block}
  {a' : Arena x} {held : Set Nat}

/-- A fresh heap has no blocks. -/
theorem sound_fresh (hw : Window x base limit) (alwaysCalloc : Bool) (m : Memory x) :
    (fresh base limit alwaysCalloc m).Sound base limit [] where
  consistent :=
    { window := hw
      brk_le := (Nat.le_add_right _ _).trans hw.room
      placed := Nat.le_refl base
      head_eq := rfl
      tail_eq := rfl
      linked := trivial
      apart := List.isChain_nil
      active_eq := rfl }
  base_eq := rfl
  limit_eq := rfl
  granted_subset := Set.empty_subset _
  granted_disjoint := Set.empty_disjoint _
  held_iff p := by simp [fresh, live]

namespace Sound

/-- The blocks may take space above the mark, but none that was granted. -/
theorem advance (h : s.Sound base limit bs) (hconsistent : a'.Consistent bs')
    (hbase : a'.heap.base = s.arena.heap.base) (hlimit : a'.heap.limit = s.arena.heap.limit)
    (hbrk : s.arena.heap.brk ≤ a'.heap.brk)
    (hregion : region x bs' ⊆ region x bs ∪ Set.Ico s.arena.heap.brk limit)
    (hheld : ∀ p, p ∈ held ↔ ∃ b ∈ live bs', b.payload x = p) :
    Sound base limit { s with arena := a', held := held } bs' where
  consistent := hconsistent
  base_eq := hbase.trans h.base_eq
  limit_eq := hlimit.trans h.limit_eq
  granted_subset := h.granted_subset.trans (Set.Ico_subset_Ico_right hbrk)
  granted_disjoint := by
    refine Set.disjoint_left.2 fun c hc hin => ?_
    rcases hregion hin with hold | hnew
    · exact Set.disjoint_left.1 h.granted_disjoint hc hold
    · exact absurd (h.granted_subset hc).2 (Nat.not_lt.2 hnew.1)
  held_iff := hheld

/-- Nothing changes when a request answers without doing anything. -/
theorem served_of_unchanged (h : s.Sound base limit bs) {r : Request} {reply : Reply x}
    (hanswered : (∃ q, reply = .ok q s.arena) ∨ ∃ p, reply = .error (.invalidPointer p) s.arena)
    (hafter : s.after r reply = s) : Served base limit s bs r reply where
  answered := hanswered.imp (fun ⟨q, hq⟩ => ⟨q, _, hq⟩) id
  sound := ⟨bs, hafter.symm ▸ h⟩
  loadByte_eq c hc hout := by
    rcases hanswered with ⟨q, hq⟩ | ⟨p, hp⟩
    · rw [hq]
      rfl
    · rw [hp]
      rfl

theorem null_not_mem_held (h : s.Sound base limit bs) : null ∉ s.held := by
  intro hnull
  obtain ⟨b, -, hb⟩ := (h.held_iff null).1 hnull
  exact absurd hb (b.payload_ne_null x)

/-- An allocation, under whichever request. -/
theorem served_answered (h : s.Sound base limit bs) {r : Request} {size q : Nat} {zeroed : Bool}
    (hanswered : Answered size zeroed s.arena bs q a')
    (hafter : s.after r (.ok q a') = { s with arena := a', held := s.held ∪ ({q} \ {null}) }) :
    Served base limit s bs r (.ok q a') := by
  cases hanswered with
  | refused hnone =>
    refine h.served_of_unchanged (.inl ⟨null, rfl⟩) ?_
    rw [hafter, Set.sdiff_self, Set.union_empty]
  | @granted need _ bs' b hsize hround hallocated hconsistent hevolves hzero =>
    refine ⟨.inl ⟨_, _, rfl⟩, ⟨bs', ?_⟩, fun c hc hout => ?_⟩
    · rw [hafter]
      refine h.advance hconsistent hevolves.base_eq hevolves.limit_eq hallocated.brk_le ?_ ?_
      · rw [← h.limit_eq]
        exact hallocated.region_subset
      · -- The new block joins the live ones, so its payload joins the pointers held.
        intro p
        have hne : b.payload x ≠ null := b.payload_ne_null x
        have hlive : (∃ c ∈ live bs', c.payload x = p) ↔ ∃ c ∈ b :: live bs, c.payload x = p := by
          simp only [hallocated.live_perm.mem_iff]
        rw [hlive, Set.mem_union, h.held_iff]
        constructor
        · rintro (⟨c, hc, hp⟩ | ⟨rfl, -⟩)
          · exact ⟨c, List.mem_cons_of_mem b hc, hp⟩
          · exact ⟨b, List.mem_cons_self, rfl⟩
        · rintro ⟨c, hc, rfl⟩
          rcases List.mem_cons.1 hc with rfl | hc
          · exact .inr ⟨rfl, hne⟩
          · exact .inl ⟨c, hc, rfl⟩
    · exact hevolves.loadByte_eq c hc fun hin => hout (.inl (h.limit_eq ▸ hin))

theorem served_malloc (h : s.Sound base limit bs) (size : Nat) :
    Served base limit s bs (.malloc size) ((Request.malloc size).run s.arena) := by
  obtain ⟨q, a', hrun, hanswered⟩ := h.consistent.yields_malloc size
  rw [Request.run, hrun]
  exact h.served_answered hanswered rfl

theorem served_calloc (h : s.Sound base limit bs) (size : Nat) :
    Served base limit s bs (.calloc size) ((Request.calloc size).run s.arena) := by
  obtain ⟨q, a', hrun, hanswered⟩ := h.consistent.yields_allocate size true
  rw [Request.run, calloc, hrun]
  exact h.served_answered hanswered rfl

theorem served_free (h : s.Sound base limit bs) (p : Nat) :
    Served base limit s bs (.free p) ((Request.free p).run s.arena) := by
  rw [Request.run_free]
  by_cases hnull : p = null
  · subst hnull
    refine h.served_of_unchanged (.inl ⟨null, rfl⟩) ?_
    show { s with held := s.held \ {null} } = s
    rw [Set.sdiff_singleton_eq_self h.null_not_mem_held]
  by_cases hheld : ∃ b ∈ live bs, b.payload x = p
  · obtain ⟨b, hb, rfl⟩ := hheld
    obtain ⟨hmem, hlive⟩ := mem_live.1 hb
    obtain ⟨l, r, rfl⟩ := List.append_of_mem hmem
    obtain ⟨q, a', hrun, hconsistent, hbrk, hevolves⟩ := h.consistent.yields_free hlive
    rw [hrun]
    refine ⟨.inl ⟨_, _, rfl⟩, ⟨released x l b r, ?_⟩, fun c hc hout => ?_⟩
    · refine h.advance hconsistent hevolves.base_eq hevolves.limit_eq hbrk.ge ?_ fun p => ?_
      · rw [region_released]
        exact Set.subset_union_left
      · rw [live_released]
        rw [h.consistent.placed.exists_payload_iff hlive, ← h.held_iff]
        exact Set.mem_sdiff p
    · refine hevolves.loadByte_eq c hc fun hin => hout (.inl (.inl ?_))
      exact headerRegion_subset_scratch _ hin
  · have hnone : ∀ b ∈ live bs, b.payload x ≠ p := fun b hb hp => hheld ⟨b, hb, hp⟩
    rw [h.consistent.free_eq_error hnull hnone]
    exact h.served_of_unchanged (.inr ⟨p, rfl⟩) rfl

/-- The pointers held after the allocation `b` moved to `b'`. -/
theorem held_moved_iff (h : s.Sound base limit bs) {need brk' : Nat} (hb : b ∈ live bs)
    (hpos : 0 < need) (hneed : x.bytes ∣ need)
    (hallocated : Allocated x need limit bs s.arena.heap.brk (l ++ b :: r) brk' b') (p : Nat) :
    p ∈ s.held \ {b.payload x} ∪ {b'.payload x} ↔
      ∃ c ∈ live (released x l b r), c.payload x = p := by
  have hplaced := hallocated.placed h.consistent.placed hpos hneed
  have hne : b'.payload x ≠ b.payload x :=
    hallocated.payload_ne_of_mem_live h.consistent.placed hpos hb
  rw [live_released, hplaced.exists_payload_iff (mem_live.1 hb).2]
  simp only [hallocated.live_perm.mem_iff, List.mem_cons, exists_eq_or_imp, ← h.held_iff]
  rw [Set.mem_union, Set.mem_sdiff, Set.mem_singleton_iff, Set.mem_singleton_iff]
  constructor
  · rintro (⟨hp, hpb⟩ | rfl)
    · exact ⟨.inr hp, hpb⟩
    · exact ⟨.inl rfl, hne⟩
  · rintro ⟨rfl | hp, hpb⟩
    · exact .inr rfl
    · exact .inl ⟨hp, hpb⟩

/-- The pointers held after the allocation `b` became `b'` in place. -/
theorem held_resized_iff (h : s.Sound base limit bs) {need limit' brk brk' : Nat}
    (hb : b ∈ live bs) (hresized : Resized x need limit' bs brk b bs' brk' b') (p : Nat) :
    p ∈ s.held \ {b.payload x} ∪ {b.payload x} ↔ ∃ c ∈ live bs', c.payload x = p := by
  have hheld : b.payload x ∈ s.held := (h.held_iff _).2 ⟨b, hb, rfl⟩
  have hpayload : b'.payload x = b.payload x := congrArg (· + headerSize x) hresized.address_eq
  obtain ⟨u, v, hu, hv⟩ := hresized.exists_live (mem_live.1 hb).2
  rw [Set.sdiff_union_self, Set.union_eq_self_of_subset_right (Set.singleton_subset_iff.2 hheld),
    h.held_iff, hu, hv]
  simp [or_and_right, exists_or, hpayload]

/-- A resize, wherever it leads. -/
theorem served_reallocated (h : s.Sound base limit bs) {size q : Nat} (hb : b ∈ live bs)
    (hreallocated : Reallocated size s.arena bs b q a') :
    Served base limit s bs (.realloc (b.payload x) size) (.ok q a') := by
  cases hreallocated with
  | refused hnone => exact h.served_of_unchanged (.inl ⟨null, rfl⟩) rfl
  | @inPlace need _ bs' b' hsize hround hresized hconsistent hevolves hzero =>
    refine ⟨.inl ⟨_, _, rfl⟩, ⟨bs', ?_⟩, fun c hc hout => ?_⟩
    · have hafter : s.after (.realloc (b.payload x) size) (.ok (b.payload x) a') =
          { s with arena := a', held := s.held \ {b.payload x} ∪ {b.payload x} } := by
        rw [after, if_neg (b.payload_ne_null x)]
      rw [hafter]
      refine h.advance hconsistent hevolves.base_eq hevolves.limit_eq hresized.brk_le ?_
        (h.held_resized_iff hb hresized)
      rw [← h.limit_eq]
      exact hresized.region_subset
    · refine hevolves.loadByte_eq c hc fun hin => hout ?_
      rcases hin with (hin | hin) | hin
      · exact .inl (.inl hin)
      · exact .inr ⟨b, hb, rfl, (Nat.le_add_right _ _).trans hin.1, hin.2⟩
      · exact .inl (.inr (h.limit_eq ▸ hin))
  | @moved need _ l r b' hsize hround hnot hallocated hconsistent hevolves hcopied hzero =>
    obtain ⟨hpos, hneed, -, -⟩ := Heap.roundSize?_spec hsize hround
    rw [h.limit_eq] at hallocated
    refine ⟨.inl ⟨_, _, rfl⟩, ⟨released x l b r, ?_⟩, fun c hc hout => ?_⟩
    · have hafter : s.after (.realloc (b.payload x) size) (.ok (b'.payload x) a') =
          { s with arena := a', held := s.held \ {b.payload x} ∪ {b'.payload x} } := by
        rw [after, if_neg (b'.payload_ne_null x)]
      rw [hafter]
      refine h.advance hconsistent hevolves.base_eq hevolves.limit_eq hallocated.brk_le ?_
        (h.held_moved_iff hb hpos hneed hallocated)
      rw [region_released]
      exact hallocated.region_subset
    · exact hevolves.loadByte_eq c hc fun hin => hout (.inl (h.limit_eq ▸ hin))

theorem served_realloc (h : s.Sound base limit bs) (p size : Nat) :
    Served base limit s bs (.realloc p size) ((Request.realloc p size).run s.arena) := by
  rw [Request.run]
  by_cases hnull : p = null
  · -- Null is not held, so this is an allocation like any other.
    subst hnull
    obtain ⟨q, a', hrun, hanswered⟩ := h.consistent.yields_malloc size
    rw [realloc_null, hrun]
    refine h.served_answered hanswered ?_
    rw [after]
    by_cases hq : q = null
    · rw [if_pos hq, hq, Set.sdiff_self, Set.union_empty]
    · rw [if_neg hq, Set.sdiff_singleton_eq_self h.null_not_mem_held,
        Set.sdiff_singleton_eq_self fun hin : null ∈ {q} => hq (Set.mem_singleton_iff.1 hin).symm]
  by_cases hheld : ∃ b ∈ live bs, b.payload x = p
  · obtain ⟨b, hb, rfl⟩ := hheld
    obtain ⟨hmem, hlive⟩ := mem_live.1 hb
    obtain ⟨l, r, rfl⟩ := List.append_of_mem hmem
    obtain ⟨q, a', hrun, hreallocated⟩ := h.consistent.yields_realloc hlive size
    rw [hrun]
    exact h.served_reallocated hb hreallocated
  · have hnone : ∀ b ∈ live bs, b.payload x ≠ p := fun b hb hp => hheld ⟨b, hb, hp⟩
    rw [h.consistent.realloc_eq_error hnull hnone]
    exact h.served_of_unchanged (.inr ⟨p, rfl⟩) rfl

theorem served_sbrk (h : s.Sound base limit bs) (increment : Int) :
    Served base limit s bs (.sbrk increment) ((Request.sbrk increment).run s.arena) := by
  have hbrk := h.consistent.placed.le
  have hbase := h.base_eq
  rw [Request.run]
  by_cases hfits : 0 ≤ increment ∧ s.arena.heap.brk + increment.toNat ≤ s.arena.heap.limit
  · have hrun : AllocM.sbrk increment s.arena = .ok s.arena.heap.brk { s.arena with
        heap := { s.arena.heap with brk := s.arena.heap.brk + increment.toNat } } :=
      sbrk_of_le hfits
    rw [hrun]
    refine ⟨.inl ⟨_, _, rfl⟩, ⟨bs, ?_⟩, fun c hc hout => rfl⟩
    have hconsistent := h.consistent.withHeap
      (k := { s.arena.heap with brk := s.arena.heap.brk + increment.toNat }) rfl rfl
      (Nat.le_add_right _ _) hfits.2 ⟨rfl, rfl⟩ rfl
    refine ⟨hconsistent, h.base_eq, h.limit_eq, ?_, ?_, h.held_iff⟩
    · refine Set.union_subset ?_ ?_
      · exact h.granted_subset.trans (Set.Ico_subset_Ico_right (Nat.le_add_right _ _))
      · exact Set.Ico_subset_Ico_left (hbase ▸ hbrk)
    · -- What is granted now lies above every block.
      refine Set.disjoint_union_left.2 ⟨h.granted_disjoint, Set.disjoint_left.2 fun c hc hin => ?_⟩
      exact absurd (h.consistent.placed.lt_of_mem_region hin) (Nat.not_lt.2 hc.1)
  · rw [sbrk_of_not_le hfits]
    refine h.served_of_unchanged (.inl ⟨_, rfl⟩) ?_
    show { s with granted := s.granted ∪ Set.Ico s.arena.heap.brk s.arena.heap.brk } = s
    rw [Set.Ico_self, Set.union_empty]

theorem served_setAlwaysCalloc (h : s.Sound base limit bs) (enabled : Bool) :
    Served base limit s bs (.setAlwaysCalloc enabled)
      ((Request.setAlwaysCalloc enabled).run s.arena) where
  answered := .inl ⟨_, _, rfl⟩
  sound := by
    have hconsistent := h.consistent.withHeap
      (k := { s.arena.heap with alwaysCalloc := enabled }) rfl rfl (Nat.le_refl _)
      h.consistent.brk_le ⟨rfl, rfl⟩ rfl
    exact ⟨bs, hconsistent, h.base_eq, h.limit_eq, h.granted_subset, h.granted_disjoint,
      h.held_iff⟩
  loadByte_eq _ _ _ := rfl

/-- Every request is served. -/
theorem served (h : s.Sound base limit bs) (r : Request) :
    Served base limit s bs r (r.run s.arena) := by
  cases r with
  | malloc size => exact h.served_malloc size
  | calloc size => exact h.served_calloc size
  | realloc p size => exact h.served_realloc p size
  | free p => exact h.served_free p
  | sbrk increment => exact h.served_sbrk increment
  | setAlwaysCalloc enabled => exact h.served_setAlwaysCalloc enabled

/-- A store to a writable address changes no header. -/
theorem store (h : s.Sound base limit bs) {address : Nat} (v : UInt8)
    (hwritable : s.Writable (x.wrap address)) :
    Sound base limit
      { s with arena := { s.arena with memory := s.arena.memory.storeByte address v } } bs := by
  have hevolves : Evolves {x.wrap address} s.arena
      { s.arena with memory := s.arena.memory.storeByte address v } := by
    refine ⟨rfl, rfl, rfl, Memory.aligned_storeByte _ _ _, fun c hc hout => ?_⟩
    have hne : x.wrap address ≠ x.wrap c := by
      rw [Xlen.wrap_of_lt hc]
      exact fun heq => hout heq.symm
    rw [Memory.loadByte_storeByte, if_neg hne]
  -- A header is not in a payload, was not granted and lies in the window.
  have hheaders : ∀ c ∈ headerRegion x bs, c ∉ ({x.wrap address} : Set Nat) := by
    rintro c hc rfl
    have hregion := headerRegion_subset_region bs hc
    rcases hwritable with ⟨hs, hblocks, b, hb, hlive, hin⟩ | hgranted | houtside
    · rw [h.consistent.blocks_eq] at hblocks
      cases hblocks
      have hd : b.block ∈ live bs := mem_live.2 ⟨block_mem_of_mem_headers hb, hlive⟩
      exact h.consistent.placed.not_mem_scratch hd hin (headerRegion_subset_scratch bs hc)
    · exact Set.disjoint_left.1 h.granted_disjoint hgranted hregion
    · refine houtside ⟨h.consistent.placed.le_of_mem_region hregion, ?_⟩
      exact (h.consistent.placed.lt_of_mem_region hregion).trans_le h.consistent.brk_le
  have hrep := h.consistent.of_evolves hevolves hheaders rfl rfl rfl
  exact ⟨⟨hrep, h.consistent.apart, h.consistent.active_eq⟩, h.base_eq, h.limit_eq,
    h.granted_subset, h.granted_disjoint, h.held_iff⟩

/-- Every step keeps a session sound. -/
theorem step (h : s.Sound base limit bs) (hstep : Step s s') : ∃ bs', s'.Sound base limit bs' := by
  cases hstep with
  | request r => exact (h.served r).sound
  | store address v hwritable => exact ⟨bs, h.store v hwritable⟩

end Sound

/-- Every session that comes about from a fresh heap is sound. -/
theorem Reachable.sound (hw : Window x base limit) (h : Reachable base limit s) :
    ∃ bs, s.Sound base limit bs := by
  obtain ⟨alwaysCalloc, m, hrun⟩ := h
  induction hrun with
  | refl => exact ⟨[], sound_fresh hw alwaysCalloc m⟩
  | tail _ hstep ih =>
    obtain ⟨bs, hsound⟩ := ih
    exact hsound.step hstep

end Session

end Hart
