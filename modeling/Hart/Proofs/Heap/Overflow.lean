/-
Numbers outside 64 bits on a damaged heap.

The allocator adds and subtracts what it finds in headers, and a program may have written
anything there.  Every header is checked when it is read, and that keeps all of its numbers
inside 64 bits: the end of its block lies below the mark, and so do the ends of two blocks
that are joined and of what is cut off.  The count of live allocations is not in memory and
not checked against it.  It is too large only after as many requests as there are numbers.
But it is too small when a program has written over the state of a block that it released:
the block is found as a live one, and there is none to be counted down.

* `AllocM.Sturdy` — no number leaves 64 bits, and the count stays;
* `sturdy_coalesceNext`, `sturdy_split`, … — every operation but those that count;
* `settles_allocate`, `settles_free`, `settles_realloc` — the operations that do;
* `free_eq_overflow` — counting down from nothing;
* `Arena.Worked` — the arenas that come about by a number of requests and any stores at all;
* `Worked.overflow_iff` — when a request ends outside 64 bits there.

Design notes: the steps in between are known from how they end (`AllocM.Ends`), so what is
proved here of an operation concerns its own sums only.
-/
import Hart.Proofs.Heap.Containment

namespace Hart

open Arena

variable {x : Xlen} {α β : Type}

/-- A cell that is read may be written, whatever has been written since. -/
theorem Memory.storeCell_of_loadCell {m m' : Memory x} (haligned : m'.aligned = m.aligned)
    {address w : Nat} (h : m.loadCell address = .ok w) (v : Nat) :
    m'.storeCell address v = .ok (m'.setCell address v) := by
  have hpolicy : m'.alignmentError? address x.bytes = m.alignmentError? address x.bytes := by
    unfold alignmentError?
    rw [haligned]
  rw [loadCell, load] at h
  rw [storeCell, store, hpolicy]
  cases hrefused : m.alignmentError? address x.bytes with
  | some e => rw [hrefused] at h; cases h
  | none => rfl

/-! ### Looking at headers -/

theorem Header.load_ne_overflow (m : Memory x) (address : Nat) :
    Header.load m address ≠ .error .overflow := by
  intro h
  unfold Header.load at h
  dsimp only at h
  cases hsize : m.loadCell (address + 0 * x.bytes) with
  | error e => rw [hsize] at h; cases h
  | ok size =>
  cases hstate : m.loadCell (address + 1 * x.bytes) with
  | error e => rw [hsize, hstate] at h; cases h
  | ok state =>
  cases hnext : m.loadCell (address + 2 * x.bytes) with
  | error e => rw [hsize, hstate, hnext] at h; cases h
  | ok next =>
  cases hprev : m.loadCell (address + 3 * x.bytes) with
  | error e => rw [hsize, hstate, hnext, hprev] at h; cases h
  | ok prev =>
  rw [hsize, hstate, hnext, hprev] at h
  match state, h with
  | 0, h => cases h
  | 1, h => cases h
  | _ + 2, h => cases h

namespace Arena

variable (a : Arena x)

/-- Looking at a header computes nothing that could leave 64 bits. -/
theorem header_ne_overflow (address : Nat) : a.header address ≠ .error .overflow := by
  unfold header
  by_cases hcontains : a.heap.Contains address
  · rw [if_pos hcontains]
    cases hload : Header.load a.memory address with
    | error e =>
      intro h
      cases h
      exact Header.load_ne_overflow a.memory address hload
    | ok b =>
      dsimp only
      split
      · simp
      · simp
  · rw [if_neg hcontains]
    simp

variable {a} in
/-- A walk that ends at a header that is refused ends as the look at it did. -/
theorem error_ne_overflow {address : Nat} {e : HeapError} (h : a.header address = .error e) :
    (.error e : Except HeapError α) ≠ .error .overflow := by
  rintro ⟨⟩
  exact a.header_ne_overflow address h

theorem firstFitFrom_ne_overflow (need fuel address : Nat) :
    a.firstFitFrom need fuel address ≠ .error .overflow := by
  fun_induction a.firstFitFrom need fuel address with
  | case1 | case3 | case4 => simp
  | case2 _ _ _ e hheader => exact error_ne_overflow hheader
  | case5 _ _ _ _ _ _ ih => exact ih

theorem allocatedFrom_ne_overflow (pointer fuel address : Nat) :
    a.allocatedFrom pointer fuel address ≠ .error .overflow := by
  fun_induction a.allocatedFrom pointer fuel address with
  | case1 _ _ _ e hheader => exact error_ne_overflow hheader
  | case2 | case3 | case4 | case6 => simp
  | case5 _ _ _ _ _ _ ih => exact ih

theorem allocated_ne_overflow (pointer : Nat) : a.allocated pointer ≠ .error .overflow := by
  unfold allocated
  split
  · exact a.allocatedFrom_ne_overflow _ _ _
  · simp

theorem blocksFrom_ne_overflow (fuel address : Nat) (seen : List Header) :
    a.blocksFrom fuel address seen ≠ .error .overflow := by
  fun_induction a.blocksFrom fuel address seen with
  | case1 | case3 => simp
  | case2 _ _ _ _ e hheader => exact error_ne_overflow hheader
  | case4 _ _ _ _ _ _ ih => exact ih

theorem blocks_ne_overflow : a.blocks ≠ .error .overflow := by
  intro h
  unfold blocks at h
  cases hwalk : a.blocksFrom a.heap.maxBlocks a.heap.head [] with
  | ok out => rw [hwalk] at h; cases h
  | error e =>
    rw [hwalk] at h
    cases h
    exact a.blocksFrom_ne_overflow _ _ _ hwalk

end Arena

namespace AllocM

/-! ### Answers and failures -/

/-- The computation is answered as `post` says, or fails as `fault` says. -/
def Settles (fault : HeapError → Arena x → Prop) (f : AllocM x α) (a : Arena x)
    (post : α → Arena x → Prop) : Prop :=
  (∀ v a', f a = .ok v a' → post v a') ∧ ∀ e a', f a = .error e a' → fault e a'

variable {a a' : Arena x} {b : Header} {need : Nat} {E F : HeapError → Arena x → Prop}

theorem settles_of_ok {f : AllocM x α} {v : α} {Q : α → Arena x → Prop} (hrun : f a = .ok v a')
    (hQ : Q v a') : Settles E f a Q := by
  constructor
  · intro w a'' hw
    rw [hrun] at hw
    cases hw
    exact hQ
  · intro e a'' he
    rw [hrun] at he
    cases he

theorem settles_of_error {f : AllocM x α} {e : HeapError} {Q : α → Arena x → Prop}
    (hrun : f a = .error e a') (hE : E e a') : Settles E f a Q := by
  constructor
  · intro w a'' hw
    rw [hrun] at hw
    cases hw
  · intro e' a'' he
    rw [hrun] at he
    cases he
    exact hE

theorem settles_pure {v : α} {Q : α → Arena x → Prop} (hQ : Q v a) : Settles E (pure v) a Q :=
  settles_of_ok rfl hQ

theorem Settles.imp {f : AllocM x α} {P Q : α → Arena x → Prop} (h : Settles E f a P)
    (hE : ∀ e a', E e a' → F e a') (hP : ∀ v a', f a = .ok v a' → P v a' → Q v a') :
    Settles F f a Q :=
  ⟨fun v a' hrun => hP v a' hrun (h.1 v a' hrun), fun e a' hrun => hE e a' (h.2 e a' hrun)⟩

/-- A sequence fails as its steps do. -/
theorem Settles.bind {f : AllocM x α} {g : α → AllocM x β} {P : α → Arena x → Prop}
    {Q : β → Arena x → Prop} (hf : Settles E f a P)
    (hg : ∀ v a', f a = .ok v a' → P v a' → Settles E (g v) a' Q) : Settles E (f >>= g) a Q := by
  cases hrun : f a with
  | error e a' => exact settles_of_error (bind_eq_error hrun g) (hf.2 e a' hrun)
  | ok v a' =>
    have hbind := bind_eq_ok hrun g
    obtain ⟨hok, herror⟩ := hg v a' hrun (hf.1 v a' hrun)
    exact ⟨fun w a'' hw => hok w a'' (hbind ▸ hw), fun e a'' he => herror e a'' (hbind ▸ he)⟩

theorem settles_inspect_bind {f : Arena x → Except HeapError α} {g : α → AllocM x β}
    {Q : β → Arena x → Prop} (hE : ∀ e, f a = .error e → E e a)
    (hg : ∀ v, f a = .ok v → Settles E (g v) a Q) : Settles E (inspect f >>= g) a Q := by
  cases hf : f a with
  | error e =>
    have hrun : inspect f a = .error e a := by rw [inspect, hf]
    exact settles_of_error (bind_eq_error hrun g) (hE e hf)
  | ok v =>
    have hrun : inspect f a = .ok v a := by rw [inspect, hf]
    have hlook : Settles E (inspect f) a fun w a' => f a = .ok w ∧ a' = a :=
      settles_of_ok hrun ⟨hf, rfl⟩
    refine hlook.bind fun w a' _ hw => ?_
    rw [hw.2]
    exact hg w hw.1

theorem settles_heap_bind {g : Heap x → AllocM x β} {Q : β → Arena x → Prop}
    (hg : Settles E (g a.heap) a Q) : Settles E (heap >>= g) a Q :=
  hg

theorem settles_ofExcept_bind {c : Except HeapError α} {v : α} {g : α → AllocM x β}
    {Q : β → Arena x → Prop} (hc : c = .ok v) (hg : Settles E (g v) a Q) :
    Settles E (ofExcept c >>= g) a Q := by
  subst hc
  exact hg

theorem settles_ofExcept_error {c : Except HeapError α} {e : HeapError} {g : α → AllocM x β}
    {Q : β → Arena x → Prop} (hc : c = .error e) (hE : E e a) :
    Settles E (ofExcept c >>= g) a Q := by
  subst hc
  exact settles_of_error rfl hE

/-- No number leaves 64 bits, and the count of live allocations stays. -/
def Sturdy (f : AllocM x α) (a : Arena x) : Prop :=
  Settles (fun e a' => e ≠ .overflow ∧ a'.heap.active = a.heap.active) f a
    fun _ a' => a'.heap.active = a.heap.active

theorem sturdy_pure (v : α) (a : Arena x) : Sturdy (pure v) a :=
  settles_pure rfl

/-- A step that ends as is known, and what follows it. -/
theorem Sturdy.bind {f : AllocM x α} {g : α → AllocM x β} {R : Arena x → Arena x → Prop}
    {P : α → Arena x → Prop} (hf : Sturdy f a) (hends : Ends R f a P)
    (hg : ∀ v a', R a a' → P v a' → Sturdy (g v) a') : Sturdy (f >>= g) a := by
  refine Settles.bind hf fun v a' hrun hactive => ?_
  obtain ⟨hR, hP⟩ := hends.1 v a' hrun
  have hnext := hg v a' hR hP
  unfold Sturdy at hnext
  rw [hactive] at hnext
  exact hnext

theorem Sturdy.andThen {f : AllocM x α} {g : α → AllocM x β} (hf : Sturdy f a)
    (hg : ∀ v a', Sturdy (g v) a') : Sturdy (f >>= g) a :=
  hf.bind (R := fun _ _ => True) (P := fun _ _ => True)
    ⟨fun _ _ _ => ⟨trivial, trivial⟩, fun _ _ _ => trivial⟩ fun v a' _ _ => hg v a'

theorem sturdy_heap_bind {g : Heap x → AllocM x β} (hg : Sturdy (g a.heap) a) :
    Sturdy (heap >>= g) a :=
  settles_heap_bind hg

/-- A number that stays in 64 bits. -/
theorem sturdy_ofExcept_bind {c : Except HeapError α} {v : α} {g : α → AllocM x β}
    (hc : c = .ok v) (hg : Sturdy (g v) a) : Sturdy (ofExcept c >>= g) a :=
  settles_ofExcept_bind hc hg

theorem sturdy_header_bind {address : Nat} {g : Header → AllocM x β}
    (hg : ∀ b, a.heap.Admits b → b.address = address → Sturdy (g b) a) :
    Sturdy (header address >>= g) a := by
  refine settles_inspect_bind (fun e he => ⟨?_, rfl⟩) fun b hheader =>
    hg b (admits_of_header hheader) (address_of_header hheader)
  rintro rfl
  exact a.header_ne_overflow address he

theorem sturdy_modifyHeap {f : Heap x → Heap x} (hactive : (f a.heap).active = a.heap.active) :
    Sturdy (modifyHeap f) a :=
  settles_of_ok rfl hactive

theorem sturdy_modifyMemory (f : Memory x → Memory x) (a : Arena x) :
    Sturdy (modifyMemory f) a :=
  settles_of_ok rfl rfl

/-! ### Edits -/

theorem sturdy_storeCell (address v : Nat) (a : Arena x) : Sturdy (storeCell address v) a := by
  cases hstore : a.memory.storeCell address v with
  | error e =>
    have hrun : storeCell address v a = .error (.memory e) a := by rw [storeCell, hstore]
    exact settles_of_error hrun ⟨HeapError.noConfusion, rfl⟩
  | ok m =>
    have hrun : storeCell address v a = .ok () { a with memory := m } := by
      rw [storeCell, hstore]
    exact settles_of_ok hrun rfl

theorem sturdy_storeHeader (b : Header) (a : Arena x) : Sturdy (storeHeader b) a := by
  unfold storeHeader
  refine (sturdy_storeCell _ _ a).andThen fun _ a₁ => ?_
  refine (sturdy_storeCell _ _ a₁).andThen fun _ a₂ => ?_
  exact (sturdy_storeCell _ _ a₂).andThen fun _ a₃ => sturdy_storeCell _ _ a₃

theorem sturdy_linkBack (next prev : Nat) (a : Arena x) : Sturdy (linkBack next prev) a := by
  unfold linkBack
  by_cases hnull : next = null
  · rw [if_pos hnull]
    exact sturdy_modifyHeap rfl
  · rw [if_neg hnull]
    exact sturdy_storeCell _ _ a

theorem sturdy_linkFront (prev next : Nat) (a : Arena x) : Sturdy (linkFront prev next) a := by
  unfold linkFront
  by_cases hnull : prev = null
  · rw [if_pos hnull]
    exact sturdy_modifyHeap rfl
  · rw [if_neg hnull]
    exact sturdy_storeCell _ _ a

theorem sturdy_unlink (b : Header) (a : Arena x) : Sturdy (unlink b) a := by
  unfold unlink
  rw [linkFront_bind]
  exact (sturdy_linkFront _ _ a).andThen fun _ a' => sturdy_linkBack _ _ a'

theorem stop_lt_wordLimit (h : a.InWindow) (hb : a.heap.Admits b) : b.stop x < wordLimit :=
  (hb.stop_le.trans h.brk_le).trans_lt h.window.limit_lt_wordLimit

theorem sturdy_coalesceNext (h : a.InWindow) (hb : a.heap.Admits b) :
    Sturdy (coalesceNext b) a := by
  unfold coalesceNext
  by_cases hskip : b.free = false ∨ b.next = null
  · rw [if_pos hskip]
    exact sturdy_pure b a
  rw [if_neg hskip]
  refine sturdy_ofExcept_bind (Header.checkedStop_of_lt (stop_lt_wordLimit h hb)) ?_
  by_cases hgap : b.next ≠ b.stop x
  · rw [if_pos hgap]
    exact sturdy_pure b a
  rw [if_neg hgap]
  refine sturdy_header_bind fun n hn haddress => ?_
  by_cases hused : n.free = false
  · rw [if_pos hused]
    exact sturdy_pure b a
  rw [if_neg hused]
  -- The two blocks together end below the mark, as the second does.
  have hnext : n.address = b.stop x := by rw [haddress, Decidable.not_not.1 hgap]
  have hmerged := stop_lt_wordLimit h (hb.merge hn hnext)
  have hsum : b.size + (headerSize x + n.size) < wordLimit :=
    (Nat.le_add_left _ _).trans_lt hmerged
  refine (sturdy_unlink n a).andThen fun _ a₁ => ?_
  refine sturdy_ofExcept_bind (checkedSum_of_lt hsum) ?_
  exact (sturdy_storeHeader _ a₁).andThen fun _ a₂ => sturdy_pure _ a₂

theorem sturdy_coalescePrev (h : a.InWindow) (b : Header) : Sturdy (coalescePrev b) a := by
  unfold coalescePrev
  by_cases hnull : b.prev = null
  · rw [if_pos hnull]
    exact sturdy_pure () a
  rw [if_neg hnull]
  refine sturdy_header_bind fun p hp _ => ?_
  refine sturdy_ofExcept_bind (Header.checkedStop_of_lt (stop_lt_wordLimit h hp)) ?_
  by_cases hadjacent : p.free = true ∧ p.stop x = b.address
  · rw [if_pos hadjacent]
    exact (sturdy_coalesceNext h hp).andThen fun _ a' => sturdy_pure () a'
  · rw [if_neg hadjacent]
    exact sturdy_pure () a

theorem sturdy_split (h : a.InWindow) (hb : a.heap.Admits b) (hle : need ≤ b.size) :
    Sturdy (split b need) a := by
  have hstop := stop_lt_wordLimit h hb
  unfold split
  refine sturdy_ofExcept_bind (checkedDifference_of_le hle) ?_
  by_cases hsmall : b.size - need ≤ headerSize x
  · rw [if_pos hsmall]
    exact (sturdy_storeHeader b a).andThen fun _ a' => sturdy_pure b a'
  rw [if_neg hsmall]
  have hspare : headerSize x < b.size - need := Nat.not_le.1 hsmall
  have hpayload : b.address + headerSize x < wordLimit := (Nat.le_add_right _ _).trans_lt hstop
  have haddress : b.payload x + need < wordLimit := (Nat.add_le_add_left hle _).trans_lt hstop
  refine sturdy_ofExcept_bind (checkedSum_of_lt hpayload) ?_
  refine sturdy_ofExcept_bind (checkedSum_of_lt haddress) ?_
  dsimp only
  rw [linkBack_bind]
  -- Both headers are written into the window, so the rest is still there to be joined.
  have hrest := hb.rest hspare
  have hkept := hb.kept hspare
  have hends := ends_storeHeader h hrest.base_le (payload_le_limit h hrest)
  refine (sturdy_storeHeader _ a).bind hends fun _ a₁ h₁ _ => ?_
  have hkept₁ := hkept.of_steady h₁
  have hends₁ := ends_storeHeader h₁.inWindow hkept₁.base_le (payload_le_limit h₁.inWindow hkept₁)
  refine (sturdy_storeHeader _ a₁).bind hends₁ fun _ a₂ h₂ _ => ?_
  have hrest₂ := (hrest.of_steady h₁).of_steady h₂
  have hends₂ := ends_linkBack h₂.inWindow (b.rest x need).address hrest₂.next_ok
  refine (sturdy_linkBack _ _ a₂).bind hends₂ fun _ a₃ h₃ _ => ?_
  have hjoined := sturdy_coalesceNext h₃.inWindow (hrest₂.of_steady h₃)
  exact hjoined.andThen fun _ a₄ => sturdy_pure _ a₄

/-! ### Fresh space -/

theorem sturdy_growTail? (b : Header) (a : Arena x) : Sturdy (growTail? b need) a := by
  unfold growTail?
  refine sturdy_heap_bind ?_
  by_cases hfits : b.payload x + need ≤ a.heap.limit
  · rw [if_pos hfits]
    refine (sturdy_modifyHeap rfl).andThen fun _ a₁ => ?_
    exact (sturdy_storeHeader _ a₁).andThen fun _ a₂ => sturdy_pure _ a₂
  · rw [if_neg hfits]
    exact sturdy_pure none a

theorem sturdy_append? (a : Arena x) : Sturdy (append? need) a := by
  unfold append?
  refine sturdy_heap_bind ?_
  cases haddress : Address.alignUp? a.heap.brk x.bytes with
  | none => exact sturdy_pure none a
  | some address =>
    dsimp only
    generalize Header.mk address need false null a.heap.tail = b
    by_cases hfits : b.stop x ≤ a.heap.limit
    · rw [if_pos hfits, linkFront_bind]
      refine (sturdy_storeHeader b a).andThen fun _ a₁ => ?_
      refine (sturdy_linkFront _ _ a₁).andThen fun _ a₂ => ?_
      exact (sturdy_modifyHeap rfl).andThen fun _ a₃ => sturdy_pure _ a₃
    · rw [if_neg hfits]
      exact sturdy_pure none a

theorem sturdy_extend? (h : a.InWindow) : Sturdy (extend? need) a := by
  unfold extend?
  refine sturdy_heap_bind ?_
  by_cases hnull : a.heap.tail = null
  · rw [if_pos hnull]
    exact sturdy_append? a
  rw [if_neg hnull]
  refine sturdy_header_bind fun b hb _ => ?_
  refine sturdy_ofExcept_bind (Header.checkedStop_of_lt (stop_lt_wordLimit h hb)) ?_
  by_cases hlast : b.free = true ∧ b.stop x = a.heap.brk
  · rw [if_pos hlast]
    exact sturdy_growTail? b a
  · rw [if_neg hlast]
    exact sturdy_append? a

theorem sturdy_zeroGrown {pointer old new : Nat} (hsum : pointer + new < wordLimit) :
    Sturdy (zeroGrown pointer old new) a := by
  unfold zeroGrown
  refine sturdy_heap_bind ?_
  by_cases hgrown : a.heap.alwaysCalloc = true ∧ old < new
  · rw [if_pos hgrown]
    refine sturdy_ofExcept_bind (checkedSum_of_lt ?_) (sturdy_modifyMemory _ a)
    omega
  · rw [if_neg hgrown]
    exact sturdy_pure () a

theorem sturdy_absorbable? (h : a.InWindow) (hb : a.heap.Admits b) :
    Sturdy (absorbable? b need) a := by
  unfold absorbable?
  refine sturdy_ofExcept_bind (Header.checkedStop_of_lt (stop_lt_wordLimit h hb)) ?_
  by_cases hgap : b.next = null ∨ b.next ≠ b.stop x
  · rw [if_pos hgap]
    exact sturdy_pure none a
  rw [if_neg hgap]
  refine sturdy_header_bind fun n hn haddress => ?_
  have hadjacent : b.next = b.stop x := Decidable.not_not.1 fun hne => hgap (.inr hne)
  have hmerged := stop_lt_wordLimit h (hb.merge hn (haddress.trans hadjacent))
  have hsum : b.size + (headerSize x + n.size) < wordLimit :=
    (Nat.le_add_left _ _).trans_lt hmerged
  refine sturdy_ofExcept_bind (checkedSum_of_lt hsum) ?_
  by_cases hsuits : n.free = true ∧ need ≤ b.size + (headerSize x + n.size)
  · rw [if_pos hsuits]
    exact sturdy_pure _ a
  · rw [if_neg hsuits]
    exact sturdy_pure none a

/-! ### Counting -/

/-- How a request may fail that finds `n` live allocations: outside 64 bits only where there
is no number for one more. -/
def Tally (n : Nat) (e : HeapError) (a' : Arena x) : Prop :=
  (e = .overflow → wordLimit ≤ n + 1) ∧ a'.heap.active ≤ n + 1

/-- What does not count may come before what does. -/
theorem Sturdy.settles {f : AllocM x α} (h : Sturdy f a)
    (hE : ∀ e a', e ≠ .overflow → a'.heap.active = a.heap.active → E e a') :
    Settles E f a fun _ a' => a'.heap.active = a.heap.active :=
  h.imp (fun e a' he => hE e a' he.1 he.2) fun _ _ _ hactive => hactive

theorem Sturdy.tally {f : AllocM x α} (h : Sturdy f a) :
    Settles (Tally a.heap.active) f a fun _ a' => a'.heap.active = a.heap.active :=
  h.settles fun _ _ hne hactive => ⟨fun heq => absurd heq hne, hactive.le.trans (Nat.le_succ _)⟩

theorem settles_handOut (hstop : b.stop x < wordLimit) (zeroed : Bool) (a : Arena x) :
    Settles (Tally a.heap.active) (handOut b zeroed) a
      fun _ a' => a'.heap.active = a.heap.active + 1 := by
  have hcount (a' : Arena x) (hactive : a'.heap.active = a.heap.active) :
      Settles (Tally a.heap.active) (heap >>= fun k => ofExcept (checkedSum k.active 1) >>=
        fun active => modifyHeap (fun k => { k with active := active }) >>= fun _ =>
          (pure (b.payload x) : AllocM x Nat)) a' fun _ a'' =>
            a''.heap.active = a.heap.active + 1 := by
    refine settles_heap_bind ?_
    rw [hactive]
    by_cases hroom : a.heap.active + 1 < wordLimit
    · refine settles_ofExcept_bind (checkedSum_of_lt hroom) ?_
      exact settles_of_ok rfl rfl
    · refine settles_ofExcept_error (if_neg hroom) ⟨fun _ => Nat.not_lt.1 hroom, ?_⟩
      exact hactive.le.trans (Nat.le_succ _)
  have hpayload : b.address + headerSize x < wordLimit := (Nat.le_add_right _ _).trans_lt hstop
  unfold handOut
  refine settles_ofExcept_bind (checkedSum_of_lt hpayload) ?_
  cases zeroed with
  | false => exact hcount a rfl
  | true =>
    exact (sturdy_modifyMemory _ a).tally.bind fun _ a' _ hactive => hcount a' hactive

/-- An allocation counts one more, and answers with null otherwise. -/
theorem settles_allocate (h : a.InWindow) (size : Nat) (zeroed : Bool) :
    Settles (Tally a.heap.active) (allocate size zeroed) a fun q a' =>
      a'.heap.active = a.heap.active + 1 ∨ q = null ∧ a'.heap.active = a.heap.active := by
  have hhanded (a' : Arena x) (hactive : a'.heap.active = a.heap.active) {c : Header}
      (hc : c.stop x < wordLimit) :
      Settles (Tally a.heap.active) (handOut c zeroed) a' fun q a'' =>
        a''.heap.active = a.heap.active + 1 ∨ q = null ∧ a''.heap.active = a.heap.active := by
    rw [← hactive]
    exact (settles_handOut hc zeroed a').imp (fun _ _ he => he) fun _ _ _ hq => .inl hq
  unfold allocate
  by_cases hsize : size = 0
  · rw [if_pos hsize]
    exact settles_pure (.inr ⟨rfl, rfl⟩)
  rw [if_neg hsize]
  refine settles_heap_bind ?_
  cases hround : a.heap.roundSize? size with
  | none => exact settles_pure (.inr ⟨rfl, rfl⟩)
  | some need =>
    dsimp only
    refine settles_inspect_bind (fun e he => ⟨?_, Nat.le_succ _⟩) fun found hfound => ?_
    · rintro rfl
      exact absurd he (a.firstFitFrom_ne_overflow _ _ _)
    cases found with
    | some b =>
      obtain ⟨hneed, c, hheader⟩ := header_of_firstFit? hfound
      have hb := admits_of_header hheader
      have htaken := hb.withFree false
      refine (sturdy_split h htaken hneed).tally.bind fun taken a' hrun hactive => ?_
      obtain ⟨hsteady, hadmits, -, -⟩ := (ends_split h htaken).1 taken a' hrun
      exact hhanded a' hactive (stop_lt_wordLimit hsteady.inWindow hadmits)
    | none =>
      refine (sturdy_extend? h).tally.bind fun v a' hrun hactive => ?_
      obtain ⟨hshifted, hroomy⟩ := (ends_extend? h).1 v a' hrun
      cases v with
      | none => exact settles_pure (.inr ⟨rfl, hactive⟩)
      | some c =>
        have hlimit := hshifted.inWindow.window.limit_lt_wordLimit
        exact hhanded a' hactive ((hroomy c rfl).stop_le.trans_lt hlimit)

/-- How a release of `p` may fail: outside 64 bits only where it finds a block that is not
counted. -/
def Uncounted (p : Nat) (a : Arena x) (e : HeapError) (a' : Arena x) : Prop :=
  (e = .overflow → p ≠ null ∧ a.heap.active = 0 ∧ ∃ b, a.allocated p = .ok b) ∧
    a'.heap.active ≤ a.heap.active

/-- A release counts one less. -/
theorem settles_free (h : a.InWindow) (p : Nat) :
    Settles (Uncounted p a) (free p) a fun _ a' => a'.heap.active ≤ a.heap.active := by
  have hquiet (a₁ : Arena x) (hle : a₁.heap.active ≤ a.heap.active) {γ : Type} {f : AllocM x γ}
      (hf : Sturdy f a₁) :
      Settles (Uncounted p a) f a₁ fun _ a' => a'.heap.active = a₁.heap.active :=
    hf.settles fun _ _ hne hactive => ⟨fun heq => absurd heq hne, hactive.le.trans hle⟩
  unfold free
  by_cases hnull : p = null
  · rw [if_pos hnull]
    exact settles_pure (Nat.le_refl _)
  rw [if_neg hnull]
  refine settles_inspect_bind (fun e he => ⟨?_, Nat.le_refl _⟩) fun b hfound => ?_
  · rintro rfl
    exact absurd he (a.allocated_ne_overflow p)
  obtain ⟨-, c, hheader⟩ := header_of_allocated hfound
  have hb := admits_of_header hheader
  have hfreed := hb.withFree true
  refine (hquiet a (Nat.le_refl _) (sturdy_storeHeader _ a)).bind fun _ a₁ hrun hactive => ?_
  obtain ⟨h₁, -⟩ := (ends_storeHeader h hfreed.base_le (payload_le_limit h hfreed)).1 _ a₁ hrun
  refine settles_heap_bind ?_
  rw [hactive]
  by_cases hcount : 1 ≤ a.heap.active
  · refine settles_ofExcept_bind (checkedDifference_of_le hcount) ?_
    have hcounted : Settles (Uncounted p a)
        (modifyHeap fun k => { k with active := a.heap.active - 1 }) a₁ fun _ a₂ =>
          a₂.heap.active = a.heap.active - 1 ∧ a₁.Steady a₂ :=
      settles_of_ok rfl ⟨rfl, h₁.inWindow.steady_heap rfl rfl rfl rfl⟩
    refine hcounted.bind fun _ a₂ _ hless => ?_
    obtain ⟨hless, h₂⟩ := hless
    -- What is left joins blocks, and joining does not count.
    have hadmits := (hfreed.of_steady h₁).of_steady h₂
    have hjoined : Sturdy (coalesceNext { b with free := true } >>= coalescePrev) a₂ := by
      refine (sturdy_coalesceNext h₂.inWindow hadmits).bind
        (ends_coalesceNext h₂.inWindow hadmits) fun merged a₃ h₃ _ => ?_
      exact sturdy_coalescePrev h₃.inWindow merged
    have hle : a₂.heap.active ≤ a.heap.active := hless.le.trans (Nat.sub_le _ _)
    exact (hquiet a₂ hle hjoined).imp (fun _ _ he => he) fun _ _ _ heq => heq.le.trans hle
  · have hzero : a.heap.active = 0 := by omega
    refine settles_ofExcept_error (if_neg hcount) ⟨fun _ => ⟨hnull, hzero, b, hfound⟩, ?_⟩
    exact hactive.le

/-- Where a header was read, another can be written. -/
theorem yields_storeHeader_of_load {address : Nat} {c : Header}
    (hload : Header.load a.memory address = .ok b) (hc : c.address = address) :
    Yields (storeHeader c) a fun _ a' => a'.heap = a.heap := by
  have hcell (a' : Arena x) (haligned : a'.memory.aligned = a.memory.aligned) {k w : Nat} (v : Nat)
      (hk : a.memory.loadCell k = .ok w) : Yields (storeCell k v) a' fun _ a'' =>
        a''.memory.aligned = a.memory.aligned ∧ a''.heap = a'.heap := by
    have hstore := Memory.storeCell_of_loadCell haligned hk v
    refine ⟨(), { a' with memory := a'.memory.setCell k v }, ?_, ?_, rfl⟩
    · rw [storeCell, hstore]
    · exact (Memory.aligned_setCell _ _ _).trans haligned
  obtain ⟨-, h0, h1, h2, h3⟩ := Header.load_eq_ok hload
  subst hc
  unfold storeHeader
  refine (hcell a rfl _ h0).bind ?_
  rintro - a₁ ⟨haligned₁, hheap₁⟩
  refine (hcell a₁ haligned₁ _ h1).bind ?_
  rintro - a₂ ⟨haligned₂, hheap₂⟩
  refine (hcell a₂ haligned₂ _ h2).bind ?_
  rintro - a₃ ⟨haligned₃, hheap₃⟩
  refine (hcell a₃ haligned₃ _ h3).imp ?_
  rintro - a₄ ⟨-, hheap₄⟩
  rw [hheap₄, hheap₃, hheap₂, hheap₁]

/-- A block that is found while none is counted cannot be counted down. -/
theorem free_eq_overflow {p : Nat} (hne : p ≠ null) (hzero : a.heap.active = 0)
    (hfound : a.allocated p = .ok b) : ∃ a', free p a = .error .overflow a' := by
  obtain ⟨-, c, hheader⟩ := header_of_allocated hfound
  have hload := (header_eq_ok hheader).2.1
  have haddress := address_of_header hheader
  obtain ⟨_, a₁, hwritten, hheap⟩ :=
    yields_storeHeader_of_load (c := { b with free := true }) hload haddress
  have hlook : (inspect fun a => a.allocated p) a = .ok b a := by rw [inspect, hfound]
  have hnone : checkedDifference a₁.heap.active 1 = .error .overflow := by
    rw [hheap, hzero]
    rfl
  have hcount : (ofExcept (checkedDifference a₁.heap.active 1) : AllocM x Nat) a₁ =
      .error .overflow a₁ := by
    rw [hnone]
    rfl
  refine ⟨a₁, ?_⟩
  unfold free
  rw [if_neg hne, bind_eq_ok hlook, bind_eq_ok hwritten]
  exact bind_eq_error hcount _

/-! ### Resizing -/

/-- An allocation that moves is counted up for the new block, and then down for the old one. -/
theorem settles_move (h : a.InWindow) (b : Header) (pointer : Nat) :
    Settles (Tally a.heap.active) (move b pointer need) a
      fun _ a' => a'.heap.active ≤ a.heap.active + 1 := by
  unfold move
  refine settles_heap_bind ?_
  refine (settles_allocate h need _).bind fun target a₁ hrun hcount => ?_
  obtain ⟨h₁, htarget⟩ := (ends_allocate h need _).1 target a₁ hrun
  by_cases hnull : target = null
  · rw [if_pos hnull]
    refine settles_pure ?_
    rcases hcount with hcount | ⟨-, hcount⟩ <;> omega
  rw [if_neg hnull]
  have hactive : a₁.heap.active = a.heap.active + 1 := by
    rcases hcount with hcount | ⟨hzero, -⟩
    · exact hcount
    · exact absurd hzero hnull
  obtain ⟨hlow, hhigh⟩ := htarget.resolve_left hnull
  have hcopied : Settles (Tally a.heap.active)
      (modifyMemory fun m => m.copy target pointer (min b.size need)) a₁ fun _ a₂ =>
        a₂.heap.active = a.heap.active + 1 ∧ a₂.InWindow := by
    have hends : Ends Steady (modifyMemory fun m => m.copy target pointer (min b.size need)) a₁
        fun _ _ => True := ends_copy h₁.inWindow hlow (by omega)
    exact settles_of_ok rfl ⟨hactive, (hends.1 _ _ rfl).1.inWindow⟩
  refine hcopied.bind fun _ a₂ _ hstate => ?_
  obtain ⟨hactive₂, h₂⟩ := hstate
  have hfreed : Settles (Tally a.heap.active) (free pointer) a₂ fun _ a' =>
      a'.heap.active ≤ a.heap.active + 1 := by
    refine (settles_free h₂ pointer).imp (fun e a' he => ⟨fun heq => ?_, ?_⟩) fun _ _ _ hle => ?_
    · -- The new block is counted, so there is one to be counted down.
      have hzero := (he.1 heq).2.1
      omega
    · exact he.2.trans hactive₂.le
    · exact hle.trans hactive₂.le
  exact hfreed.bind fun _ _ _ hle => settles_pure hle

theorem sturdy_takeIn (h : a.InWindow) (hb : a.heap.Admits b) {n : Header} {combined : Nat}
    (hn : a.heap.Admits n) (hnext : n.address = b.stop x)
    (hcombined : combined = b.size + (headerSize x + n.size)) (hneed : need ≤ combined) :
    Sturdy (unlink n >>= fun _ => split { b with size := combined, next := n.next } need >>=
      fun _ => zeroGrown (b.payload x) b.size need >>= fun _ => pure (b.payload x)) a := by
  subst hcombined
  have hboth := hb.merge hn hnext
  have hsum : b.payload x + need < wordLimit :=
    (Nat.add_le_add_left hneed _).trans_lt (stop_lt_wordLimit h hboth)
  refine (sturdy_unlink n a).bind (ends_unlink h hn) fun _ a₁ h₁ _ => ?_
  refine (sturdy_split h₁.inWindow (hboth.of_steady h₁) hneed).andThen fun _ a₂ => ?_
  exact (sturdy_zeroGrown hsum).andThen fun _ a₃ => sturdy_pure _ a₃

theorem settles_grow (h : a.InWindow) (hb : a.heap.Admits b) :
    Settles (Tally a.heap.active) (grow b (b.payload x) need) a
      fun _ a' => a'.heap.active ≤ a.heap.active + 1 := by
  have hquiet {a₁ : Arena x} (hactive : a₁.heap.active = a.heap.active) {f : AllocM x Nat}
      (hf : Sturdy f a₁) :
      Settles (Tally a.heap.active) f a₁ fun _ a' => a'.heap.active ≤ a.heap.active + 1 := by
    rw [← hactive]
    exact hf.tally.imp (fun _ _ he => he) fun _ _ _ heq => heq.le.trans (Nat.le_succ _)
  unfold grow
  refine (sturdy_absorbable? h hb).tally.bind fun v a₁ hrun hactive => ?_
  obtain ⟨h₁, hpost⟩ := (ends_absorbable? h).1 v a₁ hrun
  have hb₁ := hb.of_steady h₁
  cases v with
  | some p =>
    obtain ⟨hn, hnext, hcombined, hneed⟩ := hpost p rfl
    exact hquiet hactive (sturdy_takeIn h₁.inWindow hb₁ hn hnext hcombined hneed)
  | none =>
    dsimp only
    refine settles_heap_bind ?_
    refine settles_ofExcept_bind (Header.checkedStop_of_lt (stop_lt_wordLimit h₁.inWindow hb₁)) ?_
    by_cases hlast : b.address = a₁.heap.tail ∧ b.stop x = a₁.heap.brk ∧
        b.payload x + need ≤ a₁.heap.limit
    · rw [if_pos hlast]
      have hsum := hlast.2.2.trans_lt h₁.inWindow.window.limit_lt_wordLimit
      refine hquiet hactive ?_
      refine (sturdy_modifyHeap rfl).andThen fun _ a₂ => ?_
      refine (sturdy_storeHeader _ a₂).andThen fun _ a₃ => ?_
      exact (sturdy_zeroGrown hsum).andThen fun _ a₄ => sturdy_pure _ a₄
    · rw [if_neg hlast, ← hactive]
      exact settles_move h₁.inWindow b _

theorem settles_malloc (h : a.InWindow) (size : Nat) :
    Settles (Tally a.heap.active) (malloc size) a
      fun _ a' => a'.heap.active ≤ a.heap.active + 1 := by
  unfold malloc
  refine settles_heap_bind ((settles_allocate h size _).imp (fun _ _ he => he) ?_)
  rintro q a' - (hcount | ⟨-, hcount⟩) <;> omega

theorem settles_realloc (h : a.InWindow) (pointer size : Nat) :
    Settles (Tally a.heap.active) (realloc pointer size) a
      fun _ a' => a'.heap.active ≤ a.heap.active + 1 := by
  unfold realloc
  by_cases hnull : pointer = null
  · rw [if_pos hnull]
    exact settles_malloc h size
  rw [if_neg hnull]
  refine settles_inspect_bind (fun e he => ⟨?_, Nat.le_succ _⟩) fun b hfound => ?_
  · rintro rfl
    exact absurd he (a.allocated_ne_overflow pointer)
  obtain ⟨rfl, c, hheader⟩ := header_of_allocated hfound
  have hb := admits_of_header hheader
  refine settles_heap_bind ?_
  by_cases hsize : size = 0
  · rw [if_pos hsize]
    exact settles_pure (Nat.le_succ _)
  rw [if_neg hsize]
  cases hround : a.heap.roundSize? size with
  | none => exact settles_pure (Nat.le_succ _)
  | some need =>
    dsimp only
    by_cases hle : need ≤ b.size
    · rw [if_pos hle]
      refine (sturdy_split h hb hle).tally.bind fun _ a' _ hactive => ?_
      exact settles_pure (hactive.le.trans (Nat.le_succ _))
    · rw [if_neg hle]
      exact settles_grow h hb

end AllocM

namespace Arena

variable {a : Arena x} {base limit n : Nat}

/-! ### Requests -/

/-- A request other than a release leaves 64 bits only where the count is at its end. -/
theorem InWindow.settles_request (h : a.InWindow) {r : Request} (hr : ∀ p, r ≠ .free p) :
    AllocM.Settles (AllocM.Tally a.heap.active) r.run a
      fun _ a' => a'.heap.active ≤ a.heap.active + 1 := by
  cases r with
  | malloc size => exact AllocM.settles_malloc h size
  | calloc size =>
    refine (AllocM.settles_allocate h size true).imp (fun _ _ he => he) ?_
    rintro q a' - (hcount | ⟨-, hcount⟩) <;> omega
  | realloc pointer size => exact AllocM.settles_realloc h pointer size
  | free p => exact absurd rfl (hr p)
  | sbrk increment =>
    by_cases hfits : 0 ≤ increment ∧ a.heap.brk + increment.toNat ≤ a.heap.limit
    · exact AllocM.settles_of_ok (AllocM.sbrk_of_le hfits) (Nat.le_succ _)
    · exact AllocM.settles_of_ok (AllocM.sbrk_of_not_le hfits) (Nat.le_succ _)
  | setAlwaysCalloc enabled => exact AllocM.settles_of_ok rfl (Nat.le_succ _)

/-- A request counts one more at most, answered or refused. -/
theorem InWindow.active_request_le (h : a.InWindow) (r : Request) :
    (Reply.arena (r.run a)).heap.active ≤ a.heap.active + 1 := by
  by_cases hr : ∃ p, r = .free p
  · obtain ⟨p, rfl⟩ := hr
    have hfree := AllocM.settles_free h p
    rw [Request.run_free]
    cases hrun : AllocM.free p a with
    | ok v a' => exact (hfree.1 v a' hrun).trans (Nat.le_succ _)
    | error e a' => exact (hfree.2 e a' hrun).2.trans (Nat.le_succ _)
  · have hother := h.settles_request fun p hp => hr ⟨p, hp⟩
    cases hrun : r.run a with
    | ok v a' => exact hother.1 v a' hrun
    | error e a' => exact (hother.2 e a' hrun).2

/-! ### Runs -/

/-- The arena comes about from a fresh heap over the window by `n` requests, with stores to
any addresses in between. -/
inductive Worked (base limit : Nat) : Nat → Arena x → Prop
  | fresh (alwaysCalloc : Bool) (m : Memory x) :
      Worked base limit 0 ⟨Heap.empty x base limit alwaysCalloc, m⟩
  | request {n : Nat} {a : Arena x} (h : Worked base limit n a) (r : Request) :
      Worked base limit (n + 1) (Reply.arena (r.run a))
  | store {n : Nat} {a : Arena x} (h : Worked base limit n a) (address : Nat) (v : UInt8) :
      Worked base limit n { a with memory := a.memory.storeByte address v }

/-- Every run is one of some number of requests. -/
theorem handled_iff_exists_worked : Handled base limit a ↔ ∃ n, Worked base limit n a := by
  constructor
  · rintro ⟨alwaysCalloc, m, hrun⟩
    induction hrun with
    | refl => exact ⟨0, .fresh alwaysCalloc m⟩
    | tail _ hturn ih =>
      obtain ⟨n, hn⟩ := ih
      cases hturn with
      | request r => exact ⟨n + 1, hn.request r⟩
      | store address v => exact ⟨n, hn.store address v⟩
  · rintro ⟨n, hn⟩
    induction hn with
    | fresh alwaysCalloc m => exact ⟨alwaysCalloc, m, .refl⟩
    | request _ r ih =>
      obtain ⟨alwaysCalloc, m, hrun⟩ := ih
      exact ⟨alwaysCalloc, m, hrun.tail (.request _ r)⟩
    | store _ address v ih =>
      obtain ⟨alwaysCalloc, m, hrun⟩ := ih
      exact ⟨alwaysCalloc, m, hrun.tail (.store _ address v)⟩

theorem Worked.inWindow (hw : Window x base limit) (h : Worked base limit n a) : a.InWindow :=
  ((handled_iff_exists_worked.2 ⟨n, h⟩).inWindow hw).1

/-- Only requests count. -/
theorem Worked.active_le (hw : Window x base limit) (h : Worked base limit n a) :
    a.heap.active ≤ n := by
  induction h with
  | fresh alwaysCalloc m => exact Nat.le_refl 0
  | request hbefore r ih =>
    exact ((hbefore.inWindow hw).active_request_le r).trans (Nat.succ_le_succ ih)
  | store hbefore address v ih => exact ih

/-- Whatever a program has stored over its heap, the mark lies in the window, blocks that are
read end below it, and no sum or difference leaves 64 bits, with two exceptions: a request
for one allocation more than there are numbers, and a release that finds a block as live
while none is counted. -/
theorem Worked.overflow_iff (hw : Window x base limit) (h : Worked base limit n a) :
    (a.heap.base ≤ a.heap.brk ∧ a.heap.brk ≤ a.heap.limit ∧ a.heap.limit < wordLimit) ∧
      (∀ address b, a.header address = .ok b → b.stop x ≤ a.heap.brk) ∧
      a.blocks ≠ .error .overflow ∧
      a.heap.active ≤ n ∧
      (∀ r : Request, (∀ p, r ≠ .free p) → ∀ a', r.run a = .error .overflow a' →
        wordLimit ≤ n + 1) ∧
      ∀ p, (∃ a', AllocM.free p a = .error .overflow a') ↔
        p ≠ null ∧ a.heap.active = 0 ∧ ∃ b, a.allocated p = .ok b := by
  have hin := h.inWindow hw
  have hcount := h.active_le hw
  refine ⟨⟨hin.base_le, hin.brk_le, hin.window.limit_lt_wordLimit⟩, ?_, a.blocks_ne_overflow, hcount,
    ?_, fun p => ⟨?_, ?_⟩⟩
  · intro address b hheader
    exact (admits_of_header hheader).stop_le
  · intro r hr a' hrun
    have hfull := ((hin.settles_request hr).2 _ a' hrun).1 rfl
    omega
  · rintro ⟨a', hrun⟩
    exact ((AllocM.settles_free hin p).2 _ a' hrun).1 rfl
  · rintro ⟨hne, hzero, b, hfound⟩
    exact AllocM.free_eq_overflow hne hzero hfound

/-- A block that was released, its state written over with that of a live one. -/
def revived : Arena .rv32 :=
  let fresh : Arena .rv32 := ⟨Heap.empty .rv32 0x1000 0x2000 false, Memory.empty .rv32 true⟩
  let first := Reply.arena ((Request.malloc 16).run fresh)
  let freed := Reply.arena ((Request.free 0x1010).run first)
  { freed with memory := freed.memory.storeByte 0x1004 1 }

/-- Releasing it again finds it, and counts down from nothing. -/
theorem overflow_iff_revived :
    Worked 0x1000 0x2000 2 revived ∧
      ∃ a', AllocM.free 0x1010 revived = .error .overflow a' := by
  have hw : Window .rv32 0x1000 0x2000 := by constructor <;> decide
  have hworked : Worked 0x1000 0x2000 2 revived :=
    (((Worked.fresh false (Memory.empty .rv32 true)).request (.malloc 16)).request
      (.free 0x1010)).store 0x1004 1
  have hzero : revived.heap.active = 0 := by decide +kernel
  have hfound : revived.allocated 0x1010 = .ok ⟨0x1000, 16, false, 0, 0⟩ := by decide +kernel
  exact ⟨hworked, ((hworked.overflow_iff hw).2.2.2.2.2 0x1010).2 ⟨by decide, hzero, _, hfound⟩⟩

end Arena

end Hart
