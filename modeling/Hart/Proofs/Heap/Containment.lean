/-
Containment of a damaged heap.

Whatever a program has written over the headers of its heap, a request leaves the mark in
the window, and a byte that it changes lies in the window or in the end of a header that
starts below the mark (`reach`).  So while the mark stays a header below the limit, no
request changes a byte outside the window; above that, a link that leads to the last
bytes of the heap lets it write up to a header past the limit.

* `ends_unlink`, `ends_coalesceNext`, `ends_split`, … — what each operation writes on
  any heap, however it ends;
* `Arena.Shifted` — what a whole request keeps, which may move the mark once;
* `Arena.Handled` — the arenas that come about by requests and any stores at all;
* `Handled.request_contained` — the bytes that a request can change there.

Design notes: the mark can move down on a damaged heap, so a request is bounded by the
larger of its two marks.
-/
import Hart.Proofs.Heap.Endings

namespace Hart

open Arena

variable {x : Xlen} {α β : Type}

namespace AllocM

variable {a : Arena x} {b : Header} {need : Nat}

/-! ### Edits of the list -/

theorem ends_linkBack (h : a.InWindow) {next : Nat} (prev : Nat) (hnext : a.heap.LinkOk next) :
    Ends Steady (linkBack next prev) a fun _ _ => True := by
  unfold linkBack
  by_cases hnull : next = null
  · rw [if_pos hnull]
    exact ends_modifyHeap (h.steady_heap rfl rfl rfl rfl) trivial
  · rw [if_neg hnull]
    exact ends_setPrev h prev (hnext.resolve_left hnull)

theorem ends_linkFront (h : a.InWindow) {prev : Nat} (next : Nat) (hprev : a.heap.LinkOk prev) :
    Ends Steady (linkFront prev next) a fun _ _ => True := by
  unfold linkFront
  by_cases hnull : prev = null
  · rw [if_pos hnull]
    exact ends_modifyHeap (h.steady_heap rfl rfl rfl rfl) trivial
  · rw [if_neg hnull]
    exact ends_setNext h next (hprev.resolve_left hnull)

theorem linkBack_bind (next prev : Nat) (f : Unit → AllocM x α) :
    (if next = null then (modifyHeap fun h => { h with tail := prev }) >>= f
      else setPrev next prev >>= f) = linkBack next prev >>= f := by
  unfold linkBack
  split <;> rfl

theorem ends_unlink (h : a.InWindow) (hb : a.heap.Admits b) :
    Ends Steady (unlink b) a fun _ _ => True := by
  unfold unlink
  rw [linkFront_bind]
  refine (ends_linkFront h b.next hb.prev_ok).andThen fun _ a' hsteady _ => ?_
  exact ends_linkBack hsteady.inWindow b.prev (hb.next_ok.of_steady hsteady)

theorem ends_header_bind {R : Arena x → Arena x → Prop} {address : Nat}
    {g : Header → AllocM x β} {Q : β → Arena x → Prop} (hR : R a a)
    (hg : ∀ b, a.heap.Admits b → b.address = address → Ends R (g b) a Q) :
    Ends R (header address >>= g) a Q :=
  ends_inspect_bind hR fun b hheader =>
    hg b (admits_of_header hheader) (address_of_header hheader)

theorem payload_le_limit (h : a.InWindow) (hb : a.heap.Admits b) : b.payload x ≤ a.heap.limit :=
  (Nat.le_add_right _ _).trans (hb.stop_le.trans h.brk_le)

/-- Merging answers with a header like those that are read. -/
theorem ends_coalesceNext (h : a.InWindow) (hb : a.heap.Admits b) :
    Ends Steady (coalesceNext b) a fun v a' => a'.heap.Admits v := by
  unfold coalesceNext
  by_cases hskip : b.free = false ∨ b.next = null
  · rw [if_pos hskip]
    exact ends_pure h.steady_refl hb
  rw [if_neg hskip]
  refine ends_ofExcept_bind h.steady_refl fun stop hstop => ?_
  have hstop' := Header.eq_of_checkedStop hstop
  by_cases hgap : b.next ≠ stop
  · rw [if_pos hgap]
    exact ends_pure h.steady_refl hb
  rw [if_neg hgap]
  refine ends_header_bind h.steady_refl fun n hn haddress => ?_
  by_cases hused : n.free = false
  · rw [if_pos hused]
    exact ends_pure h.steady_refl hb
  rw [if_neg hused]
  have hnext : n.address = b.stop x := by rw [haddress, Decidable.not_not.1 hgap, hstop']
  refine (ends_unlink h hn).andThen fun _ a₁ h₁ _ => ?_
  refine ends_ofExcept_bind h₁.inWindow.steady_refl fun size hsize => ?_
  obtain rfl := eq_of_checkedSum hsize
  have hmerged := hb.merge hn hnext
  have hmerged₁ := hmerged.of_steady h₁
  refine (ends_storeHeader h₁.inWindow hmerged₁.base_le
    (payload_le_limit h₁.inWindow hmerged₁)).andThen fun _ a₂ h₂ _ => ?_
  exact ends_pure h₂.inWindow.steady_refl (hmerged₁.of_steady h₂)

theorem ends_coalescePrev (h : a.InWindow) (b : Header) :
    Ends Steady (coalescePrev b) a fun _ _ => True := by
  unfold coalescePrev
  by_cases hnull : b.prev = null
  · rw [if_pos hnull]
    exact ends_pure h.steady_refl trivial
  rw [if_neg hnull]
  refine ends_header_bind h.steady_refl fun p hp _ => ?_
  refine ends_ofExcept_bind h.steady_refl fun stop _ => ?_
  by_cases hadjacent : p.free = true ∧ stop = b.address
  · rw [if_pos hadjacent]
    refine (ends_coalesceNext h hp).andThen fun _ a' hsteady _ => ?_
    exact ends_pure hsteady.inWindow.steady_refl trivial
  · rw [if_neg hadjacent]
    exact ends_pure h.steady_refl trivial

/-- Two headers are written in place of one. -/
theorem ends_storeParts (h : a.InWindow) {rest kept : Header} (hrest : a.heap.Admits rest)
    (hkept : a.heap.Admits kept) :
    Ends Steady (storeHeader rest >>= fun _ => storeHeader kept >>= fun _ =>
      linkBack rest.next rest.address >>= fun _ => coalesceNext rest >>= fun _ => pure kept) a
      fun v a' => v = kept ∧ a'.heap.Admits kept := by
  refine (ends_storeHeader h hrest.base_le (payload_le_limit h hrest)).andThen
    fun _ a₁ h₁ _ => ?_
  have hkept₁ := hkept.of_steady h₁
  refine (ends_storeHeader h₁.inWindow hkept₁.base_le
    (payload_le_limit h₁.inWindow hkept₁)).andThen fun _ a₂ h₂ _ => ?_
  have hrest₂ := (hrest.of_steady h₁).of_steady h₂
  refine (ends_linkBack h₂.inWindow rest.address hrest₂.next_ok).andThen fun _ a₃ h₃ _ => ?_
  refine (ends_coalesceNext h₃.inWindow (hrest₂.of_steady h₃)).andThen fun _ a₄ h₄ _ => ?_
  exact ends_pure h₄.inWindow.steady_refl
    ⟨rfl, ((hkept₁.of_steady h₂).of_steady h₃).of_steady h₄⟩

/-- A block that was cut down still starts where it did, and holds what it is to hold. -/
theorem ends_split (h : a.InWindow) (hb : a.heap.Admits b) :
    Ends Steady (split b need) a fun v a' =>
      a'.heap.Admits v ∧ v.address = b.address ∧ need ≤ v.size := by
  unfold split
  refine ends_ofExcept_bind h.steady_refl fun spare hspare => ?_
  obtain ⟨hle, hspare'⟩ := eq_of_checkedDifference hspare
  by_cases hsmall : spare ≤ headerSize x
  · rw [if_pos hsmall]
    refine (ends_storeHeader h hb.base_le (payload_le_limit h hb)).andThen fun _ a₁ h₁ _ => ?_
    exact ends_pure h₁.inWindow.steady_refl ⟨hb.of_steady h₁, rfl, hle⟩
  rw [if_neg hsmall]
  refine ends_ofExcept_bind h.steady_refl fun payload hpayload => ?_
  refine ends_ofExcept_bind h.steady_refl fun address haddress => ?_
  obtain rfl : payload = b.payload x := eq_of_checkedSum hpayload
  obtain rfl := eq_of_checkedSum haddress
  subst hspare'
  have hspare : headerSize x < b.size - need := Nat.not_le.1 hsmall
  dsimp only
  rw [linkBack_bind]
  refine (ends_storeParts h (hb.rest hspare) (hb.kept hspare)).imp (fun _ hsteady => hsteady) ?_
  rintro v a' - ⟨rfl, hadmits⟩
  exact ⟨hadmits, rfl, Nat.le_refl _⟩

/-! ### Handing out and releasing -/

/-- A range in the window is set to zero. -/
theorem ends_zero (h : a.InWindow) {start n : Nat} (hlow : a.heap.base ≤ start)
    (hhigh : start + n ≤ a.heap.limit) :
    Ends Steady (modifyMemory fun m => m.zero start n) a fun _ _ => True := by
  refine ends_modifyMemory (h.steady_memory (Memory.aligned_zero _ _ _) fun c hc hout => ?_) trivial
  refine Memory.loadByte_zero_of_outside _ (hhigh.trans h.window.limit_le_space) hc fun hin => ?_
  exact hout (.inl ⟨hlow.trans hin.1, Nat.lt_of_lt_of_le hin.2 hhigh⟩)

theorem ends_handOut (h : a.InWindow) (zeroed : Bool) (hlow : a.heap.base ≤ b.address)
    (hhigh : b.stop x ≤ a.heap.limit) :
    Ends Steady (handOut b zeroed) a fun q _ => q = b.payload x := by
  have hcount (a' : Arena x) (h' : a'.InWindow) :
      Ends Steady (heap >>= fun k => ofExcept (checkedSum k.active 1) >>= fun active =>
        modifyHeap (fun k => { k with active := active }) >>= fun _ =>
          (pure (b.payload x) : AllocM x Nat)) a' fun q _ => q = b.payload x := by
    refine ends_heap_bind h'.steady_refl (ends_ofExcept_bind h'.steady_refl fun active _ => ?_)
    have hcounted := ends_modifyHeap (f := fun k => { k with active := active })
      (Q := fun _ _ => True) (h'.steady_heap rfl rfl rfl rfl) trivial
    exact hcounted.andThen fun _ a'' hsteady _ => ends_pure hsteady.inWindow.steady_refl rfl
  unfold handOut
  refine ends_ofExcept_bind h.steady_refl fun payload hpayload => ?_
  have hpayload' : payload = b.payload x := eq_of_checkedSum hpayload
  subst hpayload'
  cases zeroed with
  | true =>
    have hbase : a.heap.base ≤ b.payload x := hlow.trans (Nat.le_add_right _ _)
    exact (ends_zero h hbase hhigh).andThen fun _ a' hsteady _ => hcount a' hsteady.inWindow
  | false => exact hcount a h

theorem ends_free (h : a.InWindow) (pointer : Nat) :
    Ends Steady (free pointer) a fun _ _ => True := by
  unfold free
  by_cases hnull : pointer = null
  · rw [if_pos hnull]
    exact ends_pure h.steady_refl trivial
  rw [if_neg hnull]
  refine ends_inspect_bind h.steady_refl fun b hfound => ?_
  obtain ⟨-, c, hheader⟩ := header_of_allocated hfound
  have hb := admits_of_header hheader
  have hfreed := hb.withFree true
  refine (ends_storeHeader h hfreed.base_le (payload_le_limit h hfreed)).andThen
    fun _ a₁ h₁ _ => ?_
  refine ends_heap_bind h₁.inWindow.steady_refl ?_
  refine ends_ofExcept_bind h₁.inWindow.steady_refl fun active _ => ?_
  have hcounted := ends_modifyHeap (f := fun k => { k with active := active })
    (Q := fun _ _ => True) (h₁.inWindow.steady_heap rfl rfl rfl rfl) trivial
  refine hcounted.andThen fun _ a₂ h₂ _ => ?_
  refine (ends_coalesceNext h₂.inWindow ((hfreed.of_steady h₁).of_steady h₂)).andThen
    fun merged a₃ h₃ _ => ?_
  exact ends_coalescePrev h₃.inWindow merged

end AllocM

/-! ### Moving the mark -/

namespace Arena

/-- The mark may have moved, and nothing changed out of reach of where it was and is. -/
structure Shifted (a a' : Arena x) : Prop
    extends Evolves (reach x a.heap.base a.heap.limit (max a.heap.brk a'.heap.brk)) a a' where
  inWindow : a'.InWindow

variable {a a' a'' : Arena x}

theorem Steady.shifted (h : Steady a a') : Shifted a a' :=
  ⟨h.toEvolves.mono (reach_mono (Nat.le_max_left _ _)), h.inWindow⟩

theorem Steady.shift (h : Steady a a') (h' : Shifted a' a'') : Shifted a a'' := by
  have hnext := h'.toEvolves
  rw [h.base_eq, h.limit_eq, h.brk_eq] at hnext
  exact ⟨(h.toEvolves.mono (reach_mono (Nat.le_max_left _ _))).trans hnext, h'.inWindow⟩

theorem Shifted.steady (h : Shifted a a') (h' : Steady a' a'') : Shifted a a'' := by
  have hfirst := h.toEvolves
  have hnext := h'.toEvolves.mono (reach_mono (Nat.le_max_right a.heap.brk _))
  rw [h.base_eq, h.limit_eq] at hnext
  rw [← h'.brk_eq] at hfirst hnext
  exact ⟨hfirst.trans hnext, h'.inWindow⟩

/-- Moving the mark inside the window. -/
theorem InWindow.shifted_heap (h : a.InWindow) {k : Heap x} (hbase : k.base = a.heap.base)
    (hlimit : k.limit = a.heap.limit) (hpolicy : k.alwaysCalloc = a.heap.alwaysCalloc)
    (hlow : a.heap.base ≤ k.brk) (hhigh : k.brk ≤ a.heap.limit) :
    Shifted a { a with heap := k } := by
  refine ⟨evolves_heap _ a hbase hlimit hpolicy, ⟨?_, ?_, ?_⟩⟩
  · show Window x k.base k.limit
    rw [hbase, hlimit]
    exact h.window
  · show k.base ≤ k.brk
    rw [hbase]
    exact hlow
  · show k.brk ≤ k.limit
    rw [hlimit]
    exact hhigh

/-- A header of at least `need` bytes in the window. -/
structure Roomy (a : Arena x) (need : Nat) (b : Header) : Prop where
  base_le : a.heap.base ≤ b.address
  stop_le : b.stop x ≤ a.heap.limit
  need_le : need ≤ b.size

theorem Roomy.of_steady {need : Nat} {b : Header} (h : a.Roomy need b) (hsteady : Steady a a') :
    a'.Roomy need b :=
  ⟨hsteady.base_eq ▸ h.base_le, hsteady.limit_eq ▸ h.stop_le, h.need_le⟩

end Arena

namespace AllocM

variable {a : Arena x} {b : Header} {need : Nat}

theorem Ends.shifted {f : AllocM x α} {Q : α → Arena x → Prop} (h : Ends Steady f a Q) :
    Ends Shifted f a Q :=
  h.imp (fun _ hsteady => hsteady.shifted) fun _ _ _ hQ => hQ

theorem Ends.thenShift {f : AllocM x α} {g : α → AllocM x β} {P : α → Arena x → Prop}
    {Q : β → Arena x → Prop} (hf : Ends Steady f a P)
    (hg : ∀ v a', a.Steady a' → P v a' → Ends Shifted (g v) a' Q) :
    Ends Shifted (f >>= g) a Q :=
  hf.bind hg (fun _ h => h.shifted) fun _ _ h h' => h.shift h'

theorem Ends.shiftThen {f : AllocM x α} {g : α → AllocM x β} {P : α → Arena x → Prop}
    {Q : β → Arena x → Prop} (hf : Ends Shifted f a P)
    (hg : ∀ v a', a.Shifted a' → P v a' → Ends Steady (g v) a' Q) :
    Ends Shifted (f >>= g) a Q :=
  hf.bind hg (fun _ h => h) fun _ _ h h' => h.steady h'

theorem ends_growTail? (h : a.InWindow) (hb : a.heap.Admits b) :
    Ends Shifted (growTail? b need) a fun v a' => ∀ c ∈ v, a'.Roomy need c := by
  unfold growTail?
  refine ends_heap_bind h.steady_refl.shifted ?_
  by_cases hfits : b.payload x + need ≤ a.heap.limit
  · rw [if_pos hfits]
    have hlow : a.heap.base ≤ b.payload x := hb.base_le.trans (Nat.le_add_right _ _)
    have hmoved := ends_modifyHeap (f := fun k => { k with brk := b.payload x + need })
      (Q := fun _ a' => a'.heap.limit = a.heap.limit)
      (h.shifted_heap rfl rfl rfl (hlow.trans (Nat.le_add_right _ _)) hfits) rfl
    refine hmoved.shiftThen fun _ a₁ h₁ _ => ?_
    have hroomy : a₁.Roomy need { b with size := need, free := false } :=
      ⟨h₁.base_eq ▸ hb.base_le, h₁.limit_eq ▸ hfits, Nat.le_refl _⟩
    refine (ends_storeHeader h₁.inWindow hroomy.base_le
      ((Nat.le_add_right _ _).trans hroomy.stop_le)).andThen fun _ a₂ h₂ _ => ?_
    refine ends_pure h₂.inWindow.steady_refl ?_
    rintro c ⟨⟩
    exact hroomy.of_steady h₂
  · rw [if_neg hfits]
    exact ends_pure h.steady_refl.shifted fun c hc => by cases hc

theorem ends_append? (h : a.InWindow) (htail : a.heap.LinkOk a.heap.tail) :
    Ends Shifted (append? need) a fun v a' => ∀ c ∈ v, a'.Roomy need c := by
  unfold append?
  refine ends_heap_bind h.steady_refl.shifted ?_
  cases haddress : Address.alignUp? a.heap.brk x.bytes with
  | none => exact ends_pure h.steady_refl.shifted fun c hc => by cases hc
  | some address =>
    have hbrk := (Address.alignUp?_spec haddress).2.1
    have hlow : a.heap.base ≤ address := h.base_le.trans hbrk
    dsimp only
    generalize hb : Header.mk address need false null a.heap.tail = b
    have hstart : b.address = address := by rw [← hb]
    by_cases hfits : b.stop x ≤ a.heap.limit
    · rw [if_pos hfits, linkFront_bind]
      have hroomy : a.Roomy need b := ⟨hstart ▸ hlow, hfits, by rw [← hb]⟩
      refine (ends_storeHeader h hroomy.base_le
        ((Nat.le_add_right _ _).trans hroomy.stop_le)).thenShift fun _ a₁ h₁ _ => ?_
      refine (ends_linkFront h₁.inWindow address (htail.of_steady h₁)).thenShift
        fun _ a₂ h₂ _ => ?_
      have hroomy₂ := (hroomy.of_steady h₁).of_steady h₂
      have hstop : a₂.heap.base ≤ b.stop x :=
        hroomy₂.base_le.trans ((Nat.le_add_right _ _).trans (Nat.le_add_right _ _))
      have hmoved := ends_modifyHeap (f := fun k => { k with tail := address, brk := b.stop x })
        (Q := fun _ a' => a'.Roomy need b)
        (h₂.inWindow.shifted_heap rfl rfl rfl hstop hroomy₂.stop_le)
        ⟨hroomy₂.base_le, hroomy₂.stop_le, hroomy₂.need_le⟩
      refine hmoved.shiftThen fun _ a₃ h₃ hroomy₃ => ends_pure h₃.inWindow.steady_refl ?_
      rintro c ⟨⟩
      exact hroomy₃
    · rw [if_neg hfits]
      exact ends_pure h.steady_refl.shifted fun c hc => by cases hc

theorem ends_extend? (h : a.InWindow) :
    Ends Shifted (extend? need) a fun v a' => ∀ c ∈ v, a'.Roomy need c := by
  unfold extend?
  refine ends_heap_bind h.steady_refl.shifted ?_
  by_cases hnull : a.heap.tail = null
  · rw [if_pos hnull]
    exact ends_append? h (.inl hnull)
  rw [if_neg hnull]
  refine ends_inspect_bind h.steady_refl.shifted fun t hheader => ?_
  refine ends_ofExcept_bind h.steady_refl.shifted fun stop _ => ?_
  by_cases hlast : t.free = true ∧ stop = a.heap.brk
  · rw [if_pos hlast]
    exact ends_growTail? h (admits_of_header hheader)
  · rw [if_neg hlast]
    exact ends_append? h (.inr (header_eq_ok hheader).1)

/-! ### Requests -/

/-- What is handed out lies in the window. -/
theorem ends_allocate (h : a.InWindow) (size : Nat) (zeroed : Bool) :
    Ends Shifted (allocate size zeroed) a fun q a' =>
      q = null ∨ (a'.heap.base ≤ q ∧ q + size ≤ a'.heap.limit) := by
  unfold allocate
  by_cases hsize : size = 0
  · rw [if_pos hsize]
    exact ends_pure h.steady_refl.shifted (.inl rfl)
  rw [if_neg hsize]
  refine ends_heap_bind h.steady_refl.shifted ?_
  cases hround : a.heap.roundSize? size with
  | none => exact ends_pure h.steady_refl.shifted (.inl rfl)
  | some need =>
    have hle := (Heap.roundSize?_spec hsize hround).2.2.1
    have hhanded (a' : Arena x) (h' : a'.InWindow) {c : Header} (hc : a'.Roomy need c) :
        Ends Steady (handOut c zeroed) a' fun q a'' =>
          q = null ∨ (a''.heap.base ≤ q ∧ q + size ≤ a''.heap.limit) := by
      refine (ends_handOut h' zeroed hc.base_le hc.stop_le).imp (fun _ hsteady => hsteady) ?_
      rintro q a'' hsteady rfl
      have hc' := hc.of_steady hsteady
      have hlow := hc'.base_le
      have hhigh := hc'.stop_le
      have hneed := hc'.need_le
      right
      unfold Header.stop Header.payload at *
      omega
    dsimp only
    refine ends_inspect_bind h.steady_refl.shifted fun found hfound => ?_
    cases found with
    | some b =>
      obtain ⟨-, c, hheader⟩ := header_of_firstFit? hfound
      have hb := admits_of_header hheader
      have htaken := hb.withFree false
      refine Ends.shifted ((ends_split h htaken).andThen fun taken a' hsteady hpost => ?_)
      obtain ⟨hadmits, -, hneed⟩ := hpost
      exact hhanded a' hsteady.inWindow
        ⟨hadmits.base_le, hadmits.stop_le.trans hsteady.inWindow.brk_le, hneed⟩
    | none =>
      refine (ends_extend? h).shiftThen fun v a' hshifted hroomy => ?_
      cases v with
      | some b => exact hhanded a' hshifted.inWindow (hroomy b rfl)
      | none => exact ends_pure hshifted.inWindow.steady_refl (.inl rfl)

theorem ends_zeroGrown (h : a.InWindow) {pointer old : Nat} (hlow : a.heap.base ≤ pointer)
    (hhigh : pointer + need ≤ a.heap.limit) :
    Ends Steady (zeroGrown pointer old need) a fun _ _ => True := by
  unfold zeroGrown
  refine ends_heap_bind h.steady_refl ?_
  by_cases hgrown : a.heap.alwaysCalloc = true ∧ old < need
  · rw [if_pos hgrown]
    refine ends_ofExcept_bind h.steady_refl fun start hstart => ?_
    have hstart' := eq_of_checkedSum hstart
    exact ends_zero h (by omega) (by omega)
  · rw [if_neg hgrown]
    exact ends_pure h.steady_refl trivial

theorem ends_absorbable? (h : a.InWindow) :
    Ends Steady (absorbable? b need) a fun v a' => ∀ p ∈ v,
      a'.heap.Admits p.1 ∧ p.1.address = b.stop x ∧ p.2 = b.size + (headerSize x + p.1.size) ∧
        need ≤ p.2 := by
  unfold absorbable?
  refine ends_ofExcept_bind h.steady_refl fun stop hstop => ?_
  have hstop' := Header.eq_of_checkedStop hstop
  by_cases hgap : b.next = null ∨ b.next ≠ stop
  · rw [if_pos hgap]
    exact ends_pure h.steady_refl fun p hp => by cases hp
  rw [if_neg hgap]
  refine ends_header_bind h.steady_refl fun n hn haddress => ?_
  refine ends_ofExcept_bind h.steady_refl fun combined hcombined => ?_
  have hcombined' := eq_of_checkedSum hcombined
  have hnext : b.next = stop := Decidable.not_not.1 fun hne => hgap (.inr hne)
  by_cases hsuits : n.free = true ∧ need ≤ combined
  · rw [if_pos hsuits]
    refine ends_pure h.steady_refl ?_
    rintro p ⟨⟩
    exact ⟨hn, by rw [haddress, hnext, hstop'], hcombined', hsuits.2⟩
  · rw [if_neg hsuits]
    exact ends_pure h.steady_refl fun p hp => by cases hp

theorem ends_copy (h : a.InWindow) {target source n : Nat} (hlow : a.heap.base ≤ target)
    (hhigh : target + n ≤ a.heap.limit) :
    Ends Steady (modifyMemory fun m => m.copy target source n) a fun _ _ => True := by
  refine ends_modifyMemory (h.steady_memory (Memory.aligned_copy _ _ _ _) fun c hc hout => ?_)
    trivial
  refine Memory.loadByte_copy_of_outside _ (hhigh.trans h.window.limit_le_space) hc fun hin => ?_
  exact hout (.inl ⟨hlow.trans hin.1, Nat.lt_of_lt_of_le hin.2 hhigh⟩)

theorem ends_move (h : a.InWindow) (b : Header) (pointer : Nat) :
    Ends Shifted (move b pointer need) a fun _ _ => True := by
  unfold move
  refine ends_heap_bind h.steady_refl.shifted ?_
  refine (ends_allocate h need _).shiftThen fun target a₁ h₁ htarget => ?_
  by_cases hnull : target = null
  · rw [if_pos hnull]
    exact ends_pure h₁.inWindow.steady_refl trivial
  rw [if_neg hnull]
  obtain ⟨hlow, hhigh⟩ := htarget.resolve_left hnull
  refine (ends_copy h₁.inWindow hlow (by omega)).andThen fun _ a₂ h₂ _ => ?_
  refine (ends_free h₂.inWindow pointer).andThen fun _ a₃ h₃ _ => ?_
  exact ends_pure h₃.inWindow.steady_refl trivial

/-- The block and the free one behind it are made one block, and that is cut down. -/
theorem ends_takeIn (h : a.InWindow) (hb : a.heap.Admits b) {n : Header} {combined : Nat}
    (hn : a.heap.Admits n) (hnext : n.address = b.stop x)
    (hcombined : combined = b.size + (headerSize x + n.size)) (hneed : need ≤ combined) :
    Ends Steady (unlink n >>= fun _ =>
      split { b with size := combined, next := n.next } need >>= fun _ =>
      zeroGrown (b.payload x) b.size need >>= fun _ => pure (b.payload x)) a fun _ _ => True := by
  subst hcombined
  have hboth := hb.merge hn hnext
  have hlow : a.heap.base ≤ b.payload x := hb.base_le.trans (Nat.le_add_right _ _)
  have hhigh : b.payload x + need ≤ a.heap.limit :=
    (Nat.add_le_add_left hneed _).trans (hboth.stop_le.trans h.brk_le)
  refine (ends_unlink h hn).andThen fun _ a₁ h₁ _ => ?_
  refine (ends_split h₁.inWindow (hboth.of_steady h₁)).andThen fun _ a₂ h₂ _ => ?_
  have h₁₂ := h₁.trans h₂
  refine (ends_zeroGrown h₁₂.inWindow (h₁₂.base_eq ▸ hlow) (h₁₂.limit_eq ▸ hhigh)).andThen
    fun _ a₃ h₃ _ => ?_
  exact ends_pure h₃.inWindow.steady_refl trivial

theorem ends_grow (h : a.InWindow) (hb : a.heap.Admits b) :
    Ends Shifted (grow b (b.payload x) need) a fun _ _ => True := by
  unfold grow
  refine (ends_absorbable? h).thenShift fun v a₁ h₁ hpost => ?_
  have hb₁ := hb.of_steady h₁
  cases v with
  | some p =>
    obtain ⟨hn, hnext, hcombined, hneed⟩ := hpost p rfl
    exact Ends.shifted (ends_takeIn h₁.inWindow hb₁ hn hnext hcombined hneed)
  | none =>
    dsimp only
    refine ends_heap_bind h₁.inWindow.steady_refl.shifted ?_
    refine ends_ofExcept_bind h₁.inWindow.steady_refl.shifted fun stop _ => ?_
    by_cases hlast : b.address = a₁.heap.tail ∧ stop = a₁.heap.brk ∧
        b.payload x + need ≤ a₁.heap.limit
    · rw [if_pos hlast]
      have hlow : a₁.heap.base ≤ b.payload x := hb₁.base_le.trans (Nat.le_add_right _ _)
      have hmoved := ends_modifyHeap (f := fun k => { k with brk := b.payload x + need })
        (Q := fun _ _ => True)
        (h₁.inWindow.shifted_heap rfl rfl rfl (hlow.trans (Nat.le_add_right _ _)) hlast.2.2)
        trivial
      refine hmoved.shiftThen fun _ a₂ h₂ _ => ?_
      have hlow₂ : a₂.heap.base ≤ b.address := h₂.base_eq ▸ hb₁.base_le
      have hhigh₂ : b.payload x + need ≤ a₂.heap.limit := h₂.limit_eq ▸ hlast.2.2
      refine (ends_storeHeader (b := { b with size := need }) h₂.inWindow hlow₂
        ((Nat.le_add_right _ _).trans hhigh₂)).andThen fun _ a₃ h₃ _ => ?_
      have hlow₃ : a₃.heap.base ≤ b.payload x :=
        h₃.base_eq ▸ hlow₂.trans (Nat.le_add_right _ _)
      refine (ends_zeroGrown h₃.inWindow hlow₃ (h₃.limit_eq ▸ hhigh₂)).andThen
        fun _ a₄ h₄ _ => ?_
      exact ends_pure h₄.inWindow.steady_refl trivial
    · rw [if_neg hlast]
      exact ends_move h₁.inWindow b _

theorem ends_realloc (h : a.InWindow) (pointer size : Nat) :
    Ends Shifted (realloc pointer size) a fun _ _ => True := by
  unfold realloc
  by_cases hnull : pointer = null
  · rw [if_pos hnull]
    unfold malloc
    exact ends_heap_bind h.steady_refl.shifted
      ((ends_allocate h size _).imp (fun _ hshifted => hshifted) fun _ _ _ _ => trivial)
  rw [if_neg hnull]
  refine ends_inspect_bind h.steady_refl.shifted fun b hfound => ?_
  obtain ⟨rfl, c, hheader⟩ := header_of_allocated hfound
  have hb := admits_of_header hheader
  refine ends_heap_bind h.steady_refl.shifted ?_
  by_cases hsize : size = 0
  · rw [if_pos hsize]
    exact ends_pure h.steady_refl.shifted trivial
  rw [if_neg hsize]
  cases hround : a.heap.roundSize? size with
  | none => exact ends_pure h.steady_refl.shifted trivial
  | some need =>
    dsimp only
    by_cases hle : need ≤ b.size
    · rw [if_pos hle]
      refine Ends.shifted ((ends_split h hb).andThen fun _ a' hsteady _ => ?_)
      exact ends_pure hsteady.inWindow.steady_refl trivial
    · rw [if_neg hle]
      exact ends_grow h hb

end AllocM

namespace Arena

variable {a : Arena x} {base limit : Nat}

/-- What a request may do to an arena, damaged or not, whether it is answered or refused. -/
structure Contained (a a' : Arena x) : Prop where
  inWindow : a'.InWindow
  base_eq : a'.heap.base = a.heap.base
  limit_eq : a'.heap.limit = a.heap.limit
  loadByte_eq : ∀ c < x.space,
    c ∉ reach x a.heap.base a.heap.limit (max a.heap.brk a'.heap.brk) →
      a'.memory.loadByte c = a.memory.loadByte c

theorem Shifted.contained {a' : Arena x} (h : Shifted a a') : Contained a a' :=
  ⟨h.inWindow, h.base_eq, h.limit_eq, h.loadByte_eq⟩

theorem contained_of_ends {f : AllocM x Nat} {Q : Nat → Arena x → Prop}
    (h : AllocM.Ends Shifted f a Q) : Contained a (Reply.arena (f a)) := by
  cases hrun : f a with
  | ok q a' => exact (h.1 q a' hrun).1.contained
  | error e a' => exact (h.2 e a' hrun).contained

theorem InWindow.contained_request (h : a.InWindow) (r : Request) :
    Contained a (Reply.arena (r.run a)) := by
  cases r with
  | malloc size =>
    refine contained_of_ends (f := AllocM.malloc size) (Q := fun _ _ => True) ?_
    exact AllocM.ends_heap_bind h.steady_refl.shifted
      ((AllocM.ends_allocate h size _).imp (fun _ hshifted => hshifted) fun _ _ _ _ => trivial)
  | calloc size => exact contained_of_ends (AllocM.ends_allocate h size true)
  | realloc pointer size => exact contained_of_ends (AllocM.ends_realloc h pointer size)
  | free pointer =>
    refine contained_of_ends (Q := fun _ _ => True) (AllocM.Ends.shifted ?_)
    exact (AllocM.ends_free h pointer).andThen fun _ a' hsteady _ =>
      AllocM.ends_pure hsteady.inWindow.steady_refl trivial
  | sbrk increment =>
    by_cases hfits : 0 ≤ increment ∧ a.heap.brk + increment.toNat ≤ a.heap.limit
    · rw [Request.run, AllocM.sbrk_of_le hfits]
      have hlow : a.heap.base ≤ a.heap.brk + increment.toNat :=
        h.base_le.trans (Nat.le_add_right _ _)
      exact (h.shifted_heap (k := { a.heap with brk := a.heap.brk + increment.toNat }) rfl rfl rfl
        hlow hfits.2).contained
    · rw [Request.run, AllocM.sbrk_of_not_le hfits]
      exact h.steady_refl.shifted.contained
  | setAlwaysCalloc enabled =>
    exact ⟨⟨h.window, h.base_le, h.brk_le⟩, rfl, rfl, fun _ _ _ => rfl⟩

/-! ### Runs -/

/-- A request, or a store to any address at all. -/
inductive Turn : Arena x → Arena x → Prop
  | request (a : Arena x) (r : Request) : Turn a (Reply.arena (r.run a))
  | store (a : Arena x) (address : Nat) (v : UInt8) :
      Turn a { a with memory := a.memory.storeByte address v }

/-- The arena comes about from a fresh heap over the window. -/
def Handled (base limit : Nat) (a : Arena x) : Prop :=
  ∃ alwaysCalloc m, Relation.ReflTransGen Turn ⟨Heap.empty x base limit alwaysCalloc, m⟩ a

/-- Nothing that a program does to its heap brings the mark out of the window. -/
theorem Handled.inWindow (hw : Window x base limit) (h : Handled base limit a) :
    a.InWindow ∧ a.heap.base = base ∧ a.heap.limit = limit := by
  obtain ⟨alwaysCalloc, m, hrun⟩ := h
  induction hrun with
  | refl => exact ⟨⟨hw, Nat.le_refl _, (Nat.le_add_right _ _).trans hw.room⟩, rfl, rfl⟩
  | tail _ hturn ih =>
    obtain ⟨hin, hbase, hlimit⟩ := ih
    cases hturn with
    | request r =>
      have hcontained := hin.contained_request r
      exact ⟨hcontained.inWindow, hcontained.base_eq.trans hbase,
        hcontained.limit_eq.trans hlimit⟩
    | store address v => exact ⟨⟨hin.window, hin.base_le, hin.brk_le⟩, hbase, hlimit⟩

/-- Whatever a program has stored over its heap, a request that changes a byte outside the
window, answered or refused, changes the end of a header that starts below the mark: the
byte lies less than a header past the limit, and the mark was or is as close to the limit. -/
theorem Handled.request_contained (hw : Window x base limit) (h : Handled base limit a)
    (r : Request) :
    ∀ c < x.space, c ∉ Set.Ico base limit →
      (Reply.arena (r.run a)).memory.loadByte c ≠ a.memory.loadByte c →
      ∃ d, limit ≤ d ∧ x.wrap d = c ∧
        d + 1 < max a.heap.brk (Reply.arena (r.run a)).heap.brk + headerSize x ∧
        a.heap.brk ≤ limit ∧ (Reply.arena (r.run a)).heap.brk ≤ limit := by
  obtain ⟨hin, rfl, rfl⟩ := h.inWindow hw
  have hcontained := hin.contained_request r
  intro c hc hout hchanged
  have hreach : c ∈ reach x a.heap.base a.heap.limit
      (max a.heap.brk (Reply.arena (r.run a)).heap.brk) := by
    by_contra hfar
    exact hchanged (hcontained.loadByte_eq c hc hfar)
  rcases hreach with hinside | ⟨d, hlow, hhigh, hd⟩
  · exact absurd hinside hout
  · exact ⟨d, hlow, hd, hhigh, hin.brk_le, hcontained.limit_eq ▸ hcontained.inWindow.brk_le⟩

/-- Two blocks that fill their window, the second free, its link to the previous header
written over with the address of the last cell of the window; and a byte behind the window. -/
def overwritten : Arena .rv32 :=
  let fresh : Arena .rv32 := ⟨Heap.empty .rv32 0x1000 0x1040 false, Memory.empty .rv32 true⟩
  let first := Reply.arena ((Request.malloc 16).run fresh)
  let second := Reply.arena ((Request.malloc 16).run first)
  let freed := Reply.arena ((Request.free 0x1030).run second)
  let marked := { freed with memory := freed.memory.storeByte 0x1044 0x0D }
  { marked with memory := marked.memory.storeByte 0x102C 0x3C }

/-- Releasing the first block follows the link and clears the byte behind the window. -/
theorem request_contained_overwritten :
    overwritten.memory.loadByte 0x1044 = 0x0D ∧
      (Reply.arena ((Request.free 0x1010).run overwritten)).memory.loadByte 0x1044 = 0 ∧
      ∃ d, 0x1040 ≤ d ∧ Xlen.wrap .rv32 d = 0x1044 ∧
        d + 1 < max overwritten.heap.brk
          (Reply.arena ((Request.free 0x1010).run overwritten)).heap.brk + headerSize .rv32 := by
  have hw : Window .rv32 0x1000 0x1040 := by constructor <;> decide
  have hhandled : Handled 0x1000 0x1040 overwritten := by
    refine ⟨false, Memory.empty .rv32 true, ?_⟩
    exact .tail (.tail (.tail (.tail (.single (.request _ (.malloc 16)))
      (.request _ (.malloc 16))) (.request _ (.free 0x1030))) (.store _ 0x1044 0x0D))
      (.store _ 0x102C 0x3C)
  have hbefore : overwritten.memory.loadByte 0x1044 = 0x0D := by decide +kernel
  have hafter :
      (Reply.arena ((Request.free 0x1010).run overwritten)).memory.loadByte 0x1044 = 0 := by
    decide +kernel
  obtain ⟨d, hlow, hd, hhigh, -, -⟩ :=
    hhandled.request_contained hw (.free 0x1010) 0x1044 (by decide)
      (fun hin => absurd hin.2 (by decide)) (by rw [hbefore, hafter]; decide)
  exact ⟨hbefore, hafter, d, hlow, hd, hhigh⟩

end Arena

end Hart
