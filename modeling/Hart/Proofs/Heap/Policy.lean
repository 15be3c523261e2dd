/-
The allocator without an alignment policy.

The allocator reads and writes headers with accesses that the alignment policy may refuse.
On the same arena without the policy every request goes the same way, as far as it is not
refused, whatever the program has written over the headers.

* `CarriesOver` — a change of the state carries over to how a computation ends, unless it
  ends with an error of some kind, and after the change it does not end with such an error;
* `CarriesOver.bind` — such computations follow one another;
* `lenient_malloc`, `lenient_realloc`, `lenient_free` and so on — what the allocator does
  carries over to the arena without the policy.

Design notes: an error of the kind ends a computation, so that nothing has to be said about
what would come after it.  The rules take the state as given and never ask whether the
blocks are in order.
-/
import Hart.Proofs.Heap.Containment
import Hart.Proofs.Memory.Policy

namespace Hart

variable {x : Xlen} {α β σ ε : Type}

/-! ### Computations that carry over -/

/-- The second result is no error of the kind, and it is the first unless that is one. -/
structure EqUnless (kind : ε → Prop) (r r' : Except ε α) : Prop where
  spared : ∀ e, r' = .error e → ¬ kind e
  same : r = r' ∨ ∃ e, r = .error e ∧ kind e

/-- An outcome, with the state in it changed. -/
def mapState (t : σ → σ) : EStateM.Result ε σ α → EStateM.Result ε σ α
  | .ok v s => .ok v (t s)
  | .error e s => .error e (t s)

/-- The second result is no error of the kind, and it is the first in the changed state
unless that is one. -/
def Carried (kind : ε → Prop) (t : σ → σ) (r r' : EStateM.Result ε σ α) : Prop :=
  ∃ q, r' = mapState t q ∧ (∀ e s, q = .error e s → ¬ kind e) ∧
    (r = q ∨ ∃ e s, r = .error e s ∧ kind e)

/-- From the changed state the computation does not end with an error of the kind, and it
ends as from the state itself unless that ends with one. -/
def CarriesOver (kind : ε → Prop) (t : σ → σ) (f : EStateM ε σ α) : Prop :=
  ∀ s, Carried kind t (f s) (f (t s))

section

variable {kind : ε → Prop} {t : σ → σ}

theorem EqUnless.ok (v : α) : EqUnless kind (.ok v) (.ok v) :=
  ⟨nofun, .inl rfl⟩

theorem EqUnless.error {e : ε} (he : ¬ kind e) :
    EqUnless kind (.error e : Except ε α) (.error e) := by
  refine ⟨?_, .inl rfl⟩
  rintro _ ⟨⟩
  exact he

theorem EqUnless.bind {r r' : Except ε α} {g g' : α → Except ε β} (h : EqUnless kind r r')
    (hg : ∀ v, EqUnless kind (g v) (g' v)) : EqUnless kind (r >>= g) (r' >>= g') := by
  obtain ⟨hspared, hsame⟩ := h
  cases r' with
  | error e =>
    refine ⟨?_, ?_⟩
    · rintro _ ⟨⟩
      exact hspared e rfl
    · obtain rfl | ⟨e', rfl, he'⟩ := hsame
      · exact .inl rfl
      · exact .inr ⟨e', rfl, he'⟩
  | ok v =>
    refine ⟨(hg v).spared, ?_⟩
    obtain rfl | ⟨e', rfl, he'⟩ := hsame
    · exact (hg v).same
    · exact .inr ⟨e', rfl, he'⟩

variable {r r' : EStateM.Result ε σ α}

theorem carried_ok (v : α) (s : σ) :
    Carried kind t (.ok v s : EStateM.Result ε σ α) (.ok v (t s)) :=
  ⟨.ok v s, rfl, nofun, .inl rfl⟩

theorem carried_error {e : ε} (s : σ) (he : ¬ kind e) :
    Carried kind t (.error e s : EStateM.Result ε σ α) (.error e (t s)) := by
  refine ⟨.error e s, rfl, ?_, .inl rfl⟩
  rintro _ _ ⟨⟩
  exact he

/-- After an error of the kind it does not matter how the other result came about. -/
theorem Carried.of_error {e : ε} {s : σ} (h : Carried kind t r r') (he : kind e) :
    Carried kind t (.error e s) r' := by
  obtain ⟨q, hq, hspared, -⟩ := h
  exact ⟨q, hq, hspared, .inr ⟨e, s, rfl, he⟩⟩

theorem Carried.ne_error (h : Carried kind t r r') {e : ε} {s : σ} (hr : r' = .error e s) :
    ¬ kind e := by
  obtain ⟨q, rfl, hspared, -⟩ := h
  cases q with
  | ok v s' => cases hr
  | error e' s' =>
    cases hr
    exact hspared e s' rfl

/-- A result is the same in the changed state, or an error of the kind. -/
theorem Carried.eq_or_error (h : Carried kind t r r') :
    r' = mapState t r ∨ ∃ e s, r = .error e s ∧ kind e := by
  obtain ⟨q, rfl, -, rfl | herror⟩ := h
  · exact .inl rfl
  · exact .inr herror

/-- An outcome, with its state put elsewhere and its error renamed. -/
def embed {σ' ε' : Type} (w : σ → σ') (wrap : ε → ε') :
    EStateM.Result ε σ α → EStateM.Result ε' σ' α
  | .ok v s => .ok v (w s)
  | .error e s => .error (wrap e) (w s)

/-- What is carried on a part of the state is carried on the whole. -/
theorem Carried.embed {σ' ε' : Type} {kind' : ε' → Prop} {t' : σ' → σ'} {w w' : σ → σ'}
    {wrap : ε → ε'} (h : Carried kind t r r') (hw : ∀ s, w' (t s) = t' (w s))
    (hkind : ∀ e, kind' (wrap e) ↔ kind e) :
    Carried kind' t' (embed w wrap r) (embed w' wrap r') := by
  obtain ⟨q, rfl, hspared, hsame⟩ := h
  have hcarried : Carried kind' t' (Hart.embed w wrap q) (Hart.embed w' wrap (mapState t q)) := by
    cases q with
    | ok v s =>
      rw [mapState, Hart.embed, Hart.embed, hw]
      exact carried_ok v (w s)
    | error e s =>
      rw [mapState, Hart.embed, Hart.embed, hw]
      exact carried_error (w s) fun he => hspared e s rfl ((hkind e).1 he)
  obtain rfl | ⟨e, s, rfl, he⟩ := hsame
  · exact hcarried
  · exact hcarried.of_error ((hkind e).2 he)

theorem carriesOver_pure (v : α) : CarriesOver kind t (pure v : EStateM ε σ α) :=
  fun s => carried_ok v s

theorem carriesOver_throw {e : ε} (he : ¬ kind e) :
    CarriesOver kind t (throw e : EStateM ε σ α) :=
  fun s => carried_error s he

theorem carriesOver_modify {f : σ → σ} (hf : ∀ s, f (t s) = t (f s)) :
    CarriesOver kind t (modify f : EStateM ε σ Unit) := by
  intro s
  show Carried kind t (.ok () (f s)) (.ok () (f (t s)))
  rw [hf]
  exact carried_ok () (f s)

/-- The state may be looked at as far as the change leaves it alone. -/
theorem carriesOver_get_bind {g : σ → EStateM ε σ β} (hsame : ∀ s, g (t s) = g s)
    (hg : ∀ s, CarriesOver kind t (g s)) : CarriesOver kind t (get >>= g) := by
  intro s
  show Carried kind t (g s s) (g (t s) (t s))
  rw [hsame]
  exact hg s s

/-- An error of the kind ends the whole, and any other result is the same from both states. -/
theorem CarriesOver.bind {f : EStateM ε σ α} {g : α → EStateM ε σ β} (hf : CarriesOver kind t f)
    (hg : ∀ v, CarriesOver kind t (g v)) : CarriesOver kind t (f >>= g) := by
  intro s
  show Carried kind t (EStateM.bind f g s) (EStateM.bind f g (t s))
  obtain ⟨q, hq, hspared, hsame⟩ := hf s
  have hnext : Carried kind t (EStateM.bind (fun _ => q) g s) (EStateM.bind f g (t s)) := by
    unfold EStateM.bind
    rw [hq]
    cases q with
    | ok v s' => exact hg v s'
    | error e s' => exact carried_error s' (hspared e s' rfl)
  obtain heq | ⟨e, s', heq, he⟩ := hsame
  · have hrun : EStateM.bind f g s = EStateM.bind (fun _ => q) g s := by
      unfold EStateM.bind
      rw [heq]
    rw [hrun]
    exact hnext
  · have hrun : EStateM.bind f g s = .error e s' := by
      rw [EStateM.bind, heq]
    rw [hrun]
    exact hnext.of_error he

theorem CarriesOver.ite {c : Prop} [Decidable c] {f g : EStateM ε σ α}
    (hf : CarriesOver kind t f) (hg : CarriesOver kind t g) :
    CarriesOver kind t (if c then f else g) := by
  split
  · exact hf
  · exact hg

end

/-! ### Arenas -/

/-- The error is the refusal of an access that is not aligned. -/
def HeapError.IsMisaligned : HeapError → Prop
  | .memory (.misaligned _ _) => True
  | _ => False

theorem eqUnless_checkedSum (i j : Nat) :
    EqUnless HeapError.IsMisaligned (checkedSum i j) (checkedSum i j) := by
  unfold checkedSum
  split
  · exact .ok _
  · exact .error id

/-- The arena, without an alignment policy. -/
def Arena.lenient (a : Arena x) : Arena x :=
  { a with memory := a.memory.lenient }

namespace Arena

theorem loadCell_lenient (m : Memory x) (address : Nat) :
    EqUnless HeapError.IsMisaligned ((m.loadCell address).mapError .memory)
      ((m.lenient.loadCell address).mapError .memory) := by
  have hlenient : m.lenient.loadCell address = .ok (m.splitLoad address x.bytes) :=
    m.load_lenient address x.bytes
  rw [hlenient]
  cases hload : m.loadCell address with
  | error e => exact ⟨nofun, .inr ⟨.memory e, rfl, trivial⟩⟩
  | ok v =>
    rw [m.eq_of_load hload]
    exact .ok _

theorem load_lenient (m : Memory x) (address : Nat) :
    EqUnless HeapError.IsMisaligned (Header.load m address) (Header.load m.lenient address) := by
  unfold Header.load
  refine (loadCell_lenient m _).bind fun size => (loadCell_lenient m _).bind fun state => ?_
  refine (loadCell_lenient m _).bind fun next => (loadCell_lenient m _).bind fun prev => ?_
  split
  · exact .ok _
  · exact .ok _
  · exact .error id

variable (a : Arena x)

/-- A header is checked the same way once it is read. -/
theorem header_lenient (address : Nat) :
    EqUnless HeapError.IsMisaligned (a.header address) (a.lenient.header address) := by
  have heq (a : Arena x) : a.header address = if a.heap.Contains address then
      Header.load a.memory address >>= fun b =>
        if a.heap.LinkOk b.next ∧ a.heap.LinkOk b.prev ∧ b.stop x ≤ a.heap.brk then .ok b
        else .error (.corrupted address)
      else .error (.corrupted address) := by
    unfold header
    cases Header.load a.memory address <;> rfl
  rw [heq, heq]
  show EqUnless _ (if a.heap.Contains address then _ else _)
    (if a.heap.Contains address then _ else _)
  split
  · refine (load_lenient a.memory address).bind fun b => ?_
    show EqUnless _ _
      (if a.heap.LinkOk b.next ∧ a.heap.LinkOk b.prev ∧ b.stop x ≤ a.heap.brk then _ else _)
    split
    · exact .ok _
    · exact .error id
  · exact .error id

theorem firstFitFrom_eq (need fuel address : Nat) :
    a.firstFitFrom need fuel address =
      if address = null then .ok none
      else
        a.header address >>= fun b =>
          if b.free ∧ need ≤ b.size then .ok (some b)
          else match fuel with
            | 0 => .error (.corrupted address)
            | fuel + 1 => a.firstFitFrom need fuel b.next := by
  cases fuel <;> rw [firstFitFrom] <;> cases a.header address <;> rfl

/-- A walk goes on from what it has read, if that was not refused. -/
theorem firstFitFrom_lenient (need fuel address : Nat) :
    EqUnless HeapError.IsMisaligned (a.firstFitFrom need fuel address)
      (a.lenient.firstFitFrom need fuel address) := by
  rw [firstFitFrom_eq, firstFitFrom_eq]
  split
  · exact .ok _
  refine (a.header_lenient address).bind fun b => ?_
  split
  · exact .ok _
  cases fuel with
  | zero => exact .error id
  | succ fuel => exact firstFitFrom_lenient need fuel b.next

theorem firstFit?_lenient (need : Nat) :
    EqUnless HeapError.IsMisaligned (a.firstFit? need) (a.lenient.firstFit? need) :=
  a.firstFitFrom_lenient need _ _

theorem allocatedFrom_eq (pointer fuel address : Nat) :
    a.allocatedFrom pointer fuel address =
      if address ≠ null ∧ address + headerSize x ≤ pointer then
        a.header address >>= fun b =>
          if b.payload x = pointer then
            if b.free then .error (.invalidPointer pointer) else .ok b
          else match fuel with
            | 0 => .error (.corrupted address)
            | fuel + 1 => a.allocatedFrom pointer fuel b.next
      else .error (.invalidPointer pointer) := by
  cases fuel <;> rw [allocatedFrom] <;> cases a.header address <;> rfl

theorem allocatedFrom_lenient (pointer fuel address : Nat) :
    EqUnless HeapError.IsMisaligned (a.allocatedFrom pointer fuel address)
      (a.lenient.allocatedFrom pointer fuel address) := by
  rw [allocatedFrom_eq, allocatedFrom_eq]
  split
  · refine (a.header_lenient address).bind fun b => ?_
    split
    · split
      · exact .error id
      · exact .ok _
    cases fuel with
    | zero => exact .error id
    | succ fuel => exact allocatedFrom_lenient pointer fuel b.next
  · exact .error id

theorem allocated_lenient (pointer : Nat) :
    EqUnless HeapError.IsMisaligned (a.allocated pointer) (a.lenient.allocated pointer) := by
  unfold allocated
  show EqUnless _ _ (if a.heap.base + headerSize x ≤ pointer ∧ pointer < a.heap.brk then _ else _)
  split
  · exact a.allocatedFrom_lenient pointer _ _
  · exact .error id

end Arena

namespace AllocM

/-- The computation carries over to the arena without an alignment policy. -/
abbrev Lenient (f : AllocM x α) : Prop :=
  CarriesOver HeapError.IsMisaligned Arena.lenient f

/-! ### Looking and writing -/

theorem lenient_inspect {f : Arena x → Except HeapError α}
    (hf : ∀ a, EqUnless HeapError.IsMisaligned (f a) (f a.lenient)) : Lenient (inspect f) := by
  intro a
  obtain ⟨hspared, hsame⟩ := hf a
  -- What is seen without the policy is answered, for now, on the arena that has it.
  have hlook : Carried HeapError.IsMisaligned Arena.lenient
      (inspect (fun _ => f a.lenient) a) (inspect f a.lenient) := by
    rw [inspect, inspect]
    cases hrun : f a.lenient with
    | ok v => exact carried_ok v a
    | error e => exact carried_error a (hspared e hrun)
  obtain heq | ⟨e, heq, he⟩ := hsame
  · have hseen : inspect f a = inspect (fun _ => f a.lenient) a := by
      rw [inspect, inspect, heq]
    rw [hseen]
    exact hlook
  · have hrefused : inspect f a = .error e a := by rw [inspect, heq]
    rw [hrefused]
    exact hlook.of_error he

theorem lenient_heap : Lenient (heap : AllocM x (Heap x)) :=
  lenient_inspect fun _ => .ok _

theorem lenient_checkedSum (i j : Nat) : Lenient (ofExcept (checkedSum i j) : AllocM x Nat) :=
  lenient_inspect fun _ => eqUnless_checkedSum i j

theorem lenient_checkedDifference (i j : Nat) :
    Lenient (ofExcept (checkedDifference i j) : AllocM x Nat) := by
  refine lenient_inspect fun _ => ?_
  unfold checkedDifference
  split
  · exact .ok _
  · exact .error id

theorem lenient_checkedStop (b : Header) : Lenient (ofExcept (b.checkedStop x) : AllocM x Nat) :=
  lenient_inspect fun _ => (eqUnless_checkedSum _ _).bind fun _ => eqUnless_checkedSum _ _

theorem lenient_header (address : Nat) : Lenient (header address : AllocM x Header) :=
  lenient_inspect fun a => a.header_lenient address

theorem lenient_modifyHeap (f : Heap x → Heap x) : Lenient (modifyHeap f) :=
  carriesOver_modify fun _ => rfl

theorem lenient_modifyMemory {f : Memory x → Memory x} (hf : ∀ m, f m.lenient = (f m).lenient) :
    Lenient (modifyMemory f) :=
  carriesOver_modify fun a => congrArg (Arena.mk a.heap) (hf a.memory)

theorem lenient_zero (start length : Nat) :
    Lenient (modifyMemory fun m : Memory x => m.zero start length) :=
  lenient_modifyMemory fun m => m.zero_withAligned false start length

theorem lenient_storeCell (address value : Nat) :
    Lenient (storeCell address value : AllocM x Unit) := by
  intro a
  have hlenient : a.lenient.memory.storeCell address value =
      .ok (a.memory.splitStore address x.bytes value).lenient :=
    a.memory.store_lenient address x.bytes value
  have hstored : Carried HeapError.IsMisaligned Arena.lenient
      (.ok () { a with memory := a.memory.splitStore address x.bytes value })
      (storeCell address value a.lenient) := by
    rw [storeCell, hlenient]
    exact carried_ok () _
  rw [storeCell]
  cases hstore : a.memory.storeCell address value with
  | error e => exact hstored.of_error trivial
  | ok m =>
    rw [a.memory.eq_of_store hstore]
    exact hstored

theorem lenient_storeHeader (b : Header) : Lenient (storeHeader b : AllocM x Unit) :=
  (lenient_storeCell _ _).bind fun _ => (lenient_storeCell _ _).bind fun _ =>
    (lenient_storeCell _ _).bind fun _ => lenient_storeCell _ _

/-! ### Edits of the list -/

theorem lenient_linkFront (prev next : Nat) : Lenient (linkFront prev next : AllocM x Unit) :=
  .ite (lenient_modifyHeap _) (lenient_storeCell _ _)

theorem lenient_linkBack (next prev : Nat) : Lenient (linkBack next prev : AllocM x Unit) :=
  .ite (lenient_modifyHeap _) (lenient_storeCell _ _)

theorem lenient_unlink (b : Header) : Lenient (unlink b : AllocM x Unit) := by
  unfold unlink
  rw [linkFront_bind]
  exact (lenient_linkFront _ _).bind fun _ => lenient_linkBack _ _

theorem lenient_coalesceNext (b : Header) : Lenient (coalesceNext b : AllocM x Header) := by
  unfold coalesceNext
  refine .ite (carriesOver_pure _) ?_
  refine (lenient_checkedStop _).bind fun stop => .ite (carriesOver_pure _) ?_
  refine (lenient_header _).bind fun next => .ite (carriesOver_pure _) ?_
  refine (lenient_unlink _).bind fun _ => (lenient_checkedSum _ _).bind fun size => ?_
  exact (lenient_storeHeader _).bind fun _ => carriesOver_pure _

theorem lenient_coalescePrev (b : Header) : Lenient (coalescePrev b : AllocM x Unit) := by
  unfold coalescePrev
  refine .ite (carriesOver_pure _) ?_
  refine (lenient_header _).bind fun prev => (lenient_checkedStop _).bind fun stop => ?_
  exact .ite ((lenient_coalesceNext _).bind fun _ => carriesOver_pure _) (carriesOver_pure _)

theorem lenient_split (b : Header) (need : Nat) : Lenient (split b need : AllocM x Header) := by
  unfold split
  refine (lenient_checkedDifference _ _).bind fun spare => .ite ?_ ?_
  · exact (lenient_storeHeader _).bind fun _ => carriesOver_pure _
  refine (lenient_checkedSum _ _).bind fun payload => ?_
  refine (lenient_checkedSum _ _).bind fun address => ?_
  dsimp only
  rw [linkBack_bind]
  refine (lenient_storeHeader _).bind fun _ => (lenient_storeHeader _).bind fun _ => ?_
  refine (lenient_linkBack _ _).bind fun _ => ?_
  exact (lenient_coalesceNext _).bind fun _ => carriesOver_pure _

/-! ### Requests -/

theorem lenient_handOut (b : Header) (zeroed : Bool) :
    Lenient (handOut b zeroed : AllocM x Nat) := by
  have hcount (payload : Nat) : Lenient (heap >>= fun h => ofExcept (checkedSum h.active 1) >>=
      fun active => modifyHeap (fun h => { h with active := active }) >>= fun _ =>
        (pure payload : AllocM x Nat)) :=
    lenient_heap.bind fun h => (lenient_checkedSum _ _).bind fun active =>
      (lenient_modifyHeap _).bind fun _ => carriesOver_pure _
  unfold handOut
  refine (lenient_checkedSum _ _).bind fun payload => .ite ?_ (hcount payload)
  exact (lenient_zero payload b.size).bind fun _ => hcount payload

theorem lenient_growTail? (tail : Header) (need : Nat) :
    Lenient (growTail? tail need : AllocM x (Option Header)) := by
  unfold growTail?
  refine lenient_heap.bind fun h => .ite ?_ (carriesOver_pure _)
  exact (lenient_modifyHeap _).bind fun _ => (lenient_storeHeader _).bind fun _ =>
    carriesOver_pure _

theorem lenient_append? (need : Nat) : Lenient (append? need : AllocM x (Option Header)) := by
  unfold append?
  refine lenient_heap.bind fun h => ?_
  cases Address.alignUp? h.brk x.bytes with
  | none => exact carriesOver_pure _
  | some address =>
    dsimp only
    rw [linkFront_bind]
    refine .ite ?_ (carriesOver_pure _)
    refine (lenient_storeHeader _).bind fun _ => (lenient_linkFront _ _).bind fun _ => ?_
    exact (lenient_modifyHeap _).bind fun _ => carriesOver_pure _

theorem lenient_extend? (need : Nat) : Lenient (extend? need : AllocM x (Option Header)) := by
  unfold extend?
  refine lenient_heap.bind fun h => .ite (lenient_append? need) ?_
  refine (lenient_header _).bind fun tail => (lenient_checkedStop _).bind fun stop => ?_
  exact .ite (lenient_growTail? tail need) (lenient_append? need)

theorem lenient_allocate (size : Nat) (zeroed : Bool) :
    Lenient (allocate size zeroed : AllocM x Nat) := by
  unfold allocate
  refine .ite (carriesOver_pure _) (lenient_heap.bind fun h => ?_)
  cases h.roundSize? size with
  | none => exact carriesOver_pure _
  | some need =>
    refine (lenient_inspect fun a => a.firstFit?_lenient need).bind fun found => ?_
    cases found with
    | some b => exact (lenient_split _ need).bind fun taken => lenient_handOut taken zeroed
    | none =>
      refine (lenient_extend? need).bind fun made => ?_
      cases made with
      | some b => exact lenient_handOut b zeroed
      | none => exact carriesOver_pure _

theorem lenient_malloc (size : Nat) : Lenient (malloc size : AllocM x Nat) :=
  lenient_heap.bind fun h => lenient_allocate size h.alwaysCalloc

theorem lenient_free (pointer : Nat) : Lenient (free pointer : AllocM x Unit) := by
  unfold free
  refine .ite (carriesOver_pure _) ?_
  refine (lenient_inspect fun a => a.allocated_lenient pointer).bind fun b => ?_
  refine (lenient_storeHeader _).bind fun _ => lenient_heap.bind fun h => ?_
  refine (lenient_checkedDifference _ _).bind fun active => (lenient_modifyHeap _).bind fun _ => ?_
  exact (lenient_coalesceNext _).bind fun merged => lenient_coalescePrev merged

theorem lenient_zeroGrown (pointer oldSize newSize : Nat) :
    Lenient (zeroGrown pointer oldSize newSize : AllocM x Unit) := by
  unfold zeroGrown
  refine lenient_heap.bind fun h => .ite ?_ (carriesOver_pure _)
  exact (lenient_checkedSum _ _).bind fun start => lenient_zero start _

theorem lenient_absorbable? (b : Header) (need : Nat) :
    Lenient (absorbable? b need : AllocM x (Option (Header × Nat))) := by
  unfold absorbable?
  refine (lenient_checkedStop _).bind fun stop => .ite (carriesOver_pure _) ?_
  refine (lenient_header _).bind fun next => (lenient_checkedSum _ _).bind fun combined => ?_
  exact .ite (carriesOver_pure _) (carriesOver_pure _)

theorem lenient_move (b : Header) (pointer need : Nat) :
    Lenient (move b pointer need : AllocM x Nat) := by
  unfold move
  refine lenient_heap.bind fun h => (lenient_allocate need _).bind fun target => ?_
  refine .ite (carriesOver_pure _) ?_
  refine (lenient_modifyMemory fun m => m.copy_withAligned false target pointer _).bind fun _ => ?_
  exact (lenient_free pointer).bind fun _ => carriesOver_pure _

theorem lenient_grow (b : Header) (pointer need : Nat) :
    Lenient (grow b pointer need : AllocM x Nat) := by
  unfold grow
  refine (lenient_absorbable? b need).bind fun absorbed => ?_
  cases absorbed with
  | some taken =>
    exact (lenient_unlink _).bind fun _ => (lenient_split _ need).bind fun _ =>
      (lenient_zeroGrown _ _ _).bind fun _ => carriesOver_pure _
  | none =>
    refine lenient_heap.bind fun h => (lenient_checkedStop _).bind fun stop => ?_
    refine .ite ?_ (lenient_move b pointer need)
    exact (lenient_modifyHeap _).bind fun _ => (lenient_storeHeader _).bind fun _ =>
      (lenient_zeroGrown _ _ _).bind fun _ => carriesOver_pure _

theorem lenient_realloc (pointer size : Nat) :
    Lenient (realloc pointer size : AllocM x Nat) := by
  unfold realloc
  refine .ite (lenient_malloc size) ?_
  refine (lenient_inspect fun a => a.allocated_lenient pointer).bind fun b => ?_
  refine lenient_heap.bind fun h => .ite (carriesOver_pure _) ?_
  cases h.roundSize? size with
  | none => exact carriesOver_pure _
  | some need =>
    exact .ite ((lenient_split b need).bind fun _ => carriesOver_pure _)
      (lenient_grow b pointer need)

theorem lenient_sbrk (increment : Int) : Lenient (sbrk increment : AllocM x Nat) := by
  unfold sbrk
  refine lenient_heap.bind fun h => .ite ?_ (carriesOver_pure _)
  exact (lenient_modifyHeap _).bind fun _ => carriesOver_pure _

end AllocM

end Hart
