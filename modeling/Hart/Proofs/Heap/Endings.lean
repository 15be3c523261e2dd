/-
How requests end on a damaged heap.

A program may write over the headers of its heap, and then nothing is known about the
blocks.  `AllocM.Ends R f a post` still says something about the computation `f` on the
arena `a`: answered or refused, it leaves an arena that `R` relates to `a`, and an answer
satisfies `post`.  `Ends.bind` follows a sequence step by step.

What holds of every arena, damaged or not, is `Arena.InWindow`: the mark lies in the
window.  What every edit keeps is `Arena.Steady`: the mark stays, and no byte changes
outside `reach`, the window with what a header sticks out that starts below the mark.

* `ends_storeHeader` — a header is written into the window;
* `ends_setNext`, `ends_setPrev` — a link is written to a header that starts below the
  mark, wherever that header ends;
* `Heap.Admits`, `admits_of_header` — what is known of a header that was read.

Design notes: a header is checked when it is read, up to the end of its block.  Its links
are only checked to lead below the mark, so the header at such an address may end above
the limit, or above the top of the address space, where addresses wrap.
-/
import Hart.Proofs.Heap.Walks

namespace Hart

variable {x : Xlen} {α β : Type}

namespace AllocM

/-- However the computation ends, `R` relates the arena before to the one after, and an
answer satisfies `post`. -/
def Ends (R : Arena x → Arena x → Prop) (f : AllocM x α) (a : Arena x)
    (post : α → Arena x → Prop) : Prop :=
  (∀ v a', f a = .ok v a' → R a a' ∧ post v a') ∧ ∀ e a', f a = .error e a' → R a a'

variable {a : Arena x} {R S T : Arena x → Arena x → Prop}

theorem ends_of_ok {f : AllocM x α} {v : α} {a' : Arena x} {Q : α → Arena x → Prop}
    (hrun : f a = .ok v a') (hR : R a a') (hQ : Q v a') : Ends R f a Q := by
  refine ⟨fun w b hw => ?_, fun e b hb => ?_⟩
  · rw [hrun] at hw
    cases hw
    exact ⟨hR, hQ⟩
  · rw [hrun] at hb
    cases hb

theorem ends_of_error {f : AllocM x α} {e : HeapError} {a' : Arena x} {Q : α → Arena x → Prop}
    (hrun : f a = .error e a') (hR : R a a') : Ends R f a Q := by
  refine ⟨fun w b hw => ?_, fun e' b hb => ?_⟩
  · rw [hrun] at hw
    cases hw
  · rw [hrun] at hb
    cases hb
    exact hR

theorem Ends.imp {f : AllocM x α} {P Q : α → Arena x → Prop} (h : Ends R f a P)
    (hR : ∀ a', R a a' → S a a') (hP : ∀ v a', R a a' → P v a' → Q v a') : Ends S f a Q := by
  refine ⟨fun v a' hrun => ?_, fun e a' hrun => hR a' (h.2 e a' hrun)⟩
  obtain ⟨hrel, hpost⟩ := h.1 v a' hrun
  exact ⟨hR a' hrel, hP v a' hrel hpost⟩

/-- A sequence is followed from the ways in which its first step ends. -/
theorem Ends.bind {f : AllocM x α} {g : α → AllocM x β} {P : α → Arena x → Prop}
    {Q : β → Arena x → Prop} (hf : Ends R f a P)
    (hg : ∀ v a', R a a' → P v a' → Ends S (g v) a' Q) (hstop : ∀ a', R a a' → T a a')
    (hgo : ∀ a' a'', R a a' → S a' a'' → T a a'') : Ends T (f >>= g) a Q := by
  cases hrun : f a with
  | error e a' => exact ends_of_error (bind_eq_error hrun g) (hstop a' (hf.2 e a' hrun))
  | ok v a' =>
    have hbind := bind_eq_ok hrun g
    obtain ⟨hrel, hpost⟩ := hf.1 v a' hrun
    obtain ⟨hok, herror⟩ := hg v a' hrel hpost
    refine ⟨fun w b hw => ?_, fun e b hb => ?_⟩
    · obtain ⟨hrel', hQ⟩ := hok w b (hbind ▸ hw)
      exact ⟨hgo a' b hrel hrel', hQ⟩
    · exact hgo a' b hrel (herror e b (hbind ▸ hb))

theorem ends_pure {v : α} {Q : α → Arena x → Prop} (hR : R a a) (hQ : Q v a) :
    Ends R (pure v) a Q :=
  ends_of_ok rfl hR hQ

/-- Looking at the arena changes nothing. -/
theorem ends_inspect {f : Arena x → Except HeapError α} {Q : α → Arena x → Prop} (hR : R a a)
    (hQ : ∀ v, f a = .ok v → Q v a) : Ends R (inspect f) a Q := by
  cases hf : f a with
  | ok v => exact ends_of_ok (by rw [inspect, hf]) hR (hQ v hf)
  | error e => exact ends_of_error (by rw [inspect, hf]) hR

theorem ends_inspect_bind {f : Arena x → Except HeapError α} {g : α → AllocM x β}
    {Q : β → Arena x → Prop} (hR : R a a) (hg : ∀ v, f a = .ok v → Ends R (g v) a Q) :
    Ends R (inspect f >>= g) a Q := by
  have hlook : Ends (fun b b' => b = a ∧ b' = a) (inspect f) a fun v _ => f a = .ok v :=
    ends_inspect ⟨rfl, rfl⟩ fun v hv => hv
  refine hlook.bind (S := R) (fun v a' hsame hv => ?_) ?_ ?_
  · rw [hsame.2]
    exact hg v hv
  · rintro a' ⟨-, rfl⟩
    exact hR
  · rintro a' a'' ⟨-, rfl⟩ hrel
    exact hrel

theorem ends_ofExcept_bind {c : Except HeapError α} {g : α → AllocM x β}
    {Q : β → Arena x → Prop} (hR : R a a) (hg : ∀ v, c = .ok v → Ends R (g v) a Q) :
    Ends R (ofExcept c >>= g) a Q :=
  ends_inspect_bind hR hg

theorem ends_heap_bind {g : Heap x → AllocM x β} {Q : β → Arena x → Prop} (hR : R a a)
    (hg : Ends R (g a.heap) a Q) : Ends R (heap >>= g) a Q := by
  refine ends_inspect_bind hR fun v hv => ?_
  cases hv
  exact hg

theorem ends_modifyHeap {f : Heap x → Heap x} {Q : Unit → Arena x → Prop}
    (hR : R a { a with heap := f a.heap }) (hQ : Q () { a with heap := f a.heap }) :
    Ends R (modifyHeap f) a Q :=
  ends_of_ok rfl hR hQ

theorem ends_modifyMemory {f : Memory x → Memory x} {Q : Unit → Arena x → Prop}
    (hR : R a { a with memory := f a.memory }) (hQ : Q () { a with memory := f a.memory }) :
    Ends R (modifyMemory f) a Q :=
  ends_of_ok rfl hR hQ

end AllocM

/-! ### Sums that were checked -/

theorem eq_of_checkedSum {a b c : Nat} (h : checkedSum a b = .ok c) : c = a + b := by
  unfold checkedSum at h
  split at h
  · exact (Except.ok.inj h).symm
  · cases h

theorem eq_of_checkedDifference {a b c : Nat} (h : checkedDifference a b = .ok c) :
    b ≤ a ∧ c = a - b := by
  unfold checkedDifference at h
  split at h
  · exact ⟨‹_›, (Except.ok.inj h).symm⟩
  · cases h

theorem Header.eq_of_checkedStop {b : Header} {stop : Nat} (h : b.checkedStop x = .ok stop) :
    stop = b.stop x := by
  unfold Header.checkedStop at h
  cases hsum : checkedSum b.address (headerSize x) with
  | error e => rw [hsum] at h; cases h
  | ok payload =>
    rw [hsum] at h
    have hpayload := eq_of_checkedSum hsum
    rw [eq_of_checkedSum h, hpayload]
    rfl

/-! ### The mark in its window -/

/-- The addresses that may change while the mark is at `brk`: the window, and the end of
a header that starts below the mark. -/
def reach (x : Xlen) (base limit brk : Nat) : Set Nat :=
  Set.Ico base limit ∪ {c | ∃ d, limit ≤ d ∧ d + 1 < brk + headerSize x ∧ x.wrap d = c}

theorem reach_mono {base limit brk brk' : Nat} (h : brk ≤ brk') :
    reach x base limit brk ⊆ reach x base limit brk' := by
  rintro c (hc | ⟨d, hlow, hhigh, hd⟩)
  · exact .inl hc
  · exact .inr ⟨d, hlow, by omega, hd⟩

namespace Arena

/-- The mark lies in the window, whatever the blocks look like. -/
structure InWindow (a : Arena x) : Prop where
  window : Window x a.heap.base a.heap.limit
  base_le : a.heap.base ≤ a.heap.brk
  brk_le : a.heap.brk ≤ a.heap.limit

/-- An address in the window or in a header that starts below the mark is in reach. -/
theorem InWindow.wrap_mem_reach {a : Arena x} (h : a.InWindow) {d : Nat} (hlow : a.heap.base ≤ d)
    (hhigh : d + 1 < a.heap.brk + headerSize x ∨ d < a.heap.limit) :
    x.wrap d ∈ reach x a.heap.base a.heap.limit a.heap.brk := by
  by_cases hd : d < a.heap.limit
  · left
    rw [Xlen.wrap_of_lt (Nat.lt_of_lt_of_le hd h.window.limit_le_space)]
    exact ⟨hlow, hd⟩
  · right
    exact ⟨d, Nat.not_lt.1 hd, hhigh.resolve_right hd, rfl⟩

/-- The mark stayed, and nothing changed out of reach. -/
structure Steady (a a' : Arena x) : Prop
    extends Evolves (reach x a.heap.base a.heap.limit a.heap.brk) a a' where
  inWindow : a'.InWindow
  brk_eq : a'.heap.brk = a.heap.brk

variable {a a' a'' : Arena x} {b : Header}

theorem InWindow.steady_refl (h : a.InWindow) : Steady a a :=
  ⟨Evolves.refl _ a, h, rfl⟩

theorem Steady.trans (h : Steady a a') (h' : Steady a' a'') : Steady a a'' := by
  have hnext := h'.toEvolves
  rw [h.base_eq, h.limit_eq, h.brk_eq] at hnext
  exact ⟨h.toEvolves.trans hnext, h'.inWindow, h'.brk_eq.trans h.brk_eq⟩

/-- Changes of memory in reach, with the heap as it was. -/
theorem InWindow.steady_memory (h : a.InWindow) {m : Memory x}
    (haligned : m.aligned = a.memory.aligned)
    (hbytes : ∀ c < x.space, c ∉ reach x a.heap.base a.heap.limit a.heap.brk →
      m.loadByte c = a.memory.loadByte c) : Steady a { a with memory := m } :=
  ⟨⟨rfl, rfl, rfl, haligned, hbytes⟩, ⟨h.window, h.base_le, h.brk_le⟩, rfl⟩

/-- Changes of the heap other than of its window, its mark and its policy. -/
theorem InWindow.steady_heap (h : a.InWindow) {k : Heap x} (hbase : k.base = a.heap.base)
    (hlimit : k.limit = a.heap.limit) (hbrk : k.brk = a.heap.brk)
    (hpolicy : k.alwaysCalloc = a.heap.alwaysCalloc) : Steady a { a with heap := k } := by
  refine ⟨evolves_heap _ a hbase hlimit hpolicy, ⟨?_, ?_, ?_⟩, hbrk⟩
  · show Window x k.base k.limit
    rw [hbase, hlimit]
    exact h.window
  · show k.base ≤ k.brk
    rw [hbase, hbrk]
    exact h.base_le
  · show k.brk ≤ k.limit
    rw [hbrk, hlimit]
    exact h.brk_le

end Arena

/-! ### Headers that were read -/

/-- What is known of a header that was read: it starts in the heap, its block ends below
the mark, and its links lead below the mark. -/
structure Heap.Admits (h : Heap x) (b : Header) : Prop where
  base_le : h.base ≤ b.address
  stop_le : b.stop x ≤ h.brk
  next_ok : h.LinkOk b.next
  prev_ok : h.LinkOk b.prev

theorem Heap.LinkOk.of_steady {a a' : Arena x} {link : Nat} (h : a.heap.LinkOk link)
    (hsteady : a.Steady a') : a'.heap.LinkOk link := by
  unfold Heap.LinkOk Heap.Contains at *
  rw [hsteady.base_eq, hsteady.brk_eq]
  exact h

theorem Heap.Admits.of_steady {a a' : Arena x} {b : Header} (h : a.heap.Admits b)
    (hsteady : a.Steady a') : a'.heap.Admits b where
  base_le := hsteady.base_eq ▸ h.base_le
  stop_le := hsteady.brk_eq ▸ h.stop_le
  next_ok := h.next_ok.of_steady hsteady
  prev_ok := h.prev_ok.of_steady hsteady

/-- Whether a block is free does not matter for where it lies. -/
theorem Heap.Admits.withFree {h : Heap x} {b : Header} (hb : h.Admits b) (free : Bool) :
    h.Admits { b with free := free } :=
  ⟨hb.base_le, hb.stop_le, hb.next_ok, hb.prev_ok⟩

/-- Two blocks that are adjacent together end where the second did. -/
theorem Heap.Admits.merge {h : Heap x} {b n : Header} (hb : h.Admits b) (hn : h.Admits n)
    (hnext : n.address = b.stop x) :
    h.Admits { b with size := b.size + (headerSize x + n.size), next := n.next } := by
  refine ⟨hb.base_le, ?_, hn.next_ok, hb.prev_ok⟩
  have hend := hn.stop_le
  unfold Header.stop Header.payload at *
  dsimp only
  omega

/-- The free block for the rest of one that is cut down to `need` bytes. -/
def Header.rest (x : Xlen) (b : Header) (need : Nat) : Header where
  address := b.payload x + need
  size := b.size - need - headerSize x
  free := true
  next := b.next
  prev := b.address

/-- The block that is cut down. -/
def Header.kept (x : Xlen) (b : Header) (need : Nat) : Header :=
  { b with size := need, next := b.payload x + need }

/-- What is cut off lies where the block lay. -/
theorem Heap.Admits.rest {h : Heap x} {b : Header} (hb : h.Admits b) {need : Nat}
    (hspare : headerSize x < b.size - need) : h.Admits (b.rest x need) := by
  have hbase := hb.base_le
  have hstop := hb.stop_le
  have hheader := headerSize_pos x
  refine ⟨?_, ?_, hb.next_ok, .inr ⟨hbase, ?_⟩⟩
  all_goals
    unfold Header.rest Header.stop Header.payload at *
    dsimp only
    omega

/-- So does what is kept. -/
theorem Heap.Admits.kept {h : Heap x} {b : Header} (hb : h.Admits b) {need : Nat}
    (hspare : headerSize x < b.size - need) : h.Admits (b.kept x need) := by
  have hbase := hb.base_le
  have hstop := hb.stop_le
  refine ⟨hbase, ?_, .inr ⟨?_, ?_⟩, hb.prev_ok⟩
  all_goals
    unfold Header.kept Header.stop Header.payload at *
    dsimp only
    omega

theorem Arena.admits_of_header {a : Arena x} {address : Nat} {b : Header}
    (h : a.header address = .ok b) : a.heap.Admits b := by
  obtain ⟨hcontains, -, hnext, hprev, hstop⟩ := Arena.header_eq_ok h
  exact ⟨(Arena.address_of_header h).symm ▸ hcontains.1, hstop, hnext, hprev⟩

namespace AllocM

open Arena

variable {a : Arena x} {b : Header}

/-- A step that keeps the mark, and what follows it. -/
theorem Ends.andThen {f : AllocM x α} {g : α → AllocM x β} {P : α → Arena x → Prop}
    {Q : β → Arena x → Prop} (hf : Ends Steady f a P)
    (hg : ∀ v a', a.Steady a' → P v a' → Ends Steady (g v) a' Q) :
    Ends Steady (f >>= g) a Q :=
  hf.bind hg (fun _ h => h) fun _ _ h h' => h.trans h'

/-! ### Edits -/

/-- A cell is written where all its bytes are in reach. -/
theorem ends_storeCell (h : a.InWindow) {address : Nat} (v : Nat)
    (hreach : ∀ i < x.bytes,
      x.wrap (address + i) ∈ reach x a.heap.base a.heap.limit a.heap.brk) :
    Ends Steady (storeCell address v) a fun _ _ => True := by
  cases hstore : a.memory.storeCell address v with
  | error e => exact ends_of_error (by rw [storeCell, hstore]) h.steady_refl
  | ok m =>
    have hm : m = a.memory.setCell address v := by
      rw [Memory.storeCell, Memory.store] at hstore
      split at hstore
      · cases hstore
      · exact (Except.ok.inj hstore).symm
    have hsteady : a.Steady { a with memory := m } := by
      subst hm
      refine h.steady_memory (Memory.aligned_setCell _ _ _) fun c hc hout => ?_
      -- A byte out of reach is none of those of the cell.
      have hfar : x.bytes ≤ x.distance address c := by
        by_contra hnear
        have hin := hreach _ (Nat.not_le.1 hnear)
        rw [x.wrap_add_distance, Xlen.wrap_of_lt hc] at hin
        exact hout hin
      rw [Memory.setCell, Memory.loadByte_splitStore, Memory.accessBytes_bytes,
        List.getElem?_eq_none (by rw [length_toBytes]; exact hfar), Option.getD_none]
    exact ends_of_ok (by rw [storeCell, hstore]) hsteady trivial

/-- A link to a header that starts below the mark may be written over. -/
theorem ends_setLink (h : a.InWindow) {link k : Nat} (v : Nat) (hlink : a.heap.Contains link)
    (hk : k < 4) : Ends Steady (storeCell (link + k * x.bytes) v) a fun _ _ => True := by
  refine ends_storeCell h v fun i hi => h.wrap_mem_reach ?_ (.inl ?_)
  · have hbase := hlink.1
    omega
  · have hcells : (k + 1) * x.bytes ≤ 4 * x.bytes := Nat.mul_le_mul_right _ hk
    have hbelow := hlink.2
    rw [Nat.succ_mul] at hcells
    unfold headerSize
    omega

theorem ends_setNext (h : a.InWindow) {link : Nat} (v : Nat) (hlink : a.heap.Contains link) :
    Ends Steady (setNext link v) a fun _ _ => True :=
  ends_setLink h v hlink (by decide)

theorem ends_setPrev (h : a.InWindow) {link : Nat} (v : Nat) (hlink : a.heap.Contains link) :
    Ends Steady (setPrev link v) a fun _ _ => True :=
  ends_setLink h v hlink (by decide)

/-- A header that lies in the window is written there. -/
theorem ends_storeHeader (h : a.InWindow) (hlow : a.heap.base ≤ b.address)
    (hhigh : b.payload x ≤ a.heap.limit) : Ends Steady (storeHeader b) a fun _ _ => True := by
  have hcell (a' : Arena x) (hsteady : a.Steady a') {k : Nat} (hk : k < 4) (v : Nat) :
      Ends Steady (storeCell (b.address + k * x.bytes) v) a' fun _ _ => True := by
    refine ends_storeCell hsteady.inWindow v fun i hi => hsteady.inWindow.wrap_mem_reach ?_ ?_
    · rw [hsteady.base_eq]
      omega
    · right
      rw [hsteady.limit_eq]
      have hcells : (k + 1) * x.bytes ≤ 4 * x.bytes := Nat.mul_le_mul_right _ hk
      rw [Nat.succ_mul] at hcells
      unfold Header.payload headerSize at hhigh
      omega
  unfold storeHeader
  have hsize := hcell a h.steady_refl (k := 0) (by decide) b.size
  rw [Nat.zero_mul, Nat.add_zero] at hsize
  refine hsize.andThen fun _ a₁ h₁ _ => ?_
  have hstate := hcell a₁ h₁ (k := 1) (by decide) b.state
  rw [Nat.one_mul] at hstate
  refine hstate.andThen fun _ a₂ h₂ _ => ?_
  refine (hcell a₂ (h₁.trans h₂) (by decide) b.next).andThen fun _ a₃ h₃ _ => ?_
  exact hcell a₃ ((h₁.trans h₂).trans h₃) (by decide) b.prev

end AllocM

end Hart
