/-
Outcomes of allocator requests.

`AllocM.Yields f a post` says that the computation `f` succeeds from the arena `a`
with an answer and an arena that satisfy `post`.  The rules below follow a
computation step by step: each rewrites `Yields` of a construct into `Yields` of
its parts, and `Yields.bind` cuts a sequence at a step whose own outcome is known.

Accesses to headers succeed where the header lies on whole cells of the address
space (`HeaderPlace`); `Memory.Holds` says that a header is stored there.

* `yields_storeHeader`, `yields_setNext`, `yields_setPrev` — the edits of headers
  as plain changes of memory;
* `Memory.holds_setHeader` — a header that was written is stored;
* `Header.load_of_holds` — a header that is stored is loaded.
-/
import Hart.Heap.Resize
import Hart.Proofs.Heap.Blocks

namespace Hart

variable {x : Xlen} {α β : Type}

namespace AllocM

/-- The computation succeeds and its outcome satisfies `post`. -/
def Yields (f : AllocM x α) (a : Arena x) (post : α → Arena x → Prop) : Prop :=
  ∃ v a', f a = .ok v a' ∧ post v a'

variable {a : Arena x}

theorem Yields.imp {f : AllocM x α} {P Q : α → Arena x → Prop} (h : Yields f a P)
    (himp : ∀ v a', P v a' → Q v a') : Yields f a Q := by
  obtain ⟨v, a', hrun, hP⟩ := h
  exact ⟨v, a', hrun, himp v a' hP⟩

/-- A step that succeeds hands its answer on. -/
theorem bind_eq_ok {f : AllocM x α} {v : α} {a' : Arena x} (h : f a = .ok v a')
    (g : α → AllocM x β) : (f >>= g) a = g v a' := by
  show EStateM.bind f g a = _
  rw [EStateM.bind, h]

/-- A failing step ends a sequence. -/
theorem bind_eq_error {f : AllocM x α} {e : HeapError} {a' : Arena x} (h : f a = .error e a')
    (g : α → AllocM x β) : (f >>= g) a = .error e a' := by
  show EStateM.bind f g a = _
  rw [EStateM.bind, h]

theorem yields_bind {f : AllocM x α} {g : α → AllocM x β} {Q : β → Arena x → Prop} :
    Yields (f >>= g) a Q ↔ Yields f a fun v a' => Yields (g v) a' Q := by
  constructor
  · rintro ⟨w, b, hrun, hQ⟩
    cases hf : f a with
    | ok v a' => exact ⟨v, a', hf, w, b, (bind_eq_ok hf g).symm.trans hrun, hQ⟩
    | error e a' => exact absurd ((bind_eq_error hf g).symm.trans hrun) (by simp)
  · rintro ⟨v, a', hf, w, b, hg, hQ⟩
    exact ⟨w, b, (bind_eq_ok hf g).trans hg, hQ⟩

/-- A sequence is followed from the outcome of its first step. -/
theorem Yields.bind {f : AllocM x α} {g : α → AllocM x β} {P : α → Arena x → Prop}
    {Q : β → Arena x → Prop} (h : Yields f a P) (hg : ∀ v a', P v a' → Yields (g v) a' Q) :
    Yields (f >>= g) a Q :=
  yields_bind.2 (h.imp hg)

theorem yields_pure {v : α} {Q : α → Arena x → Prop} : Yields (pure v) a Q ↔ Q v a := by
  constructor
  · rintro ⟨w, b, hrun, hQ⟩
    cases hrun
    exact hQ
  · intro hQ
    exact ⟨v, a, rfl, hQ⟩

theorem yields_inspect {f : Arena x → Except HeapError α} {v : α} {Q : α → Arena x → Prop}
    (h : f a = .ok v) : Yields (inspect f) a Q ↔ Q v a := by
  have hrun : inspect f a = .ok v a := by rw [inspect, h]
  constructor
  · rintro ⟨w, b, hrun', hQ⟩
    rw [hrun] at hrun'
    cases hrun'
    exact hQ
  · intro hQ
    exact ⟨v, a, hrun, hQ⟩

theorem yields_ofExcept {c : Except HeapError α} {v : α} {Q : α → Arena x → Prop} (h : c = .ok v) :
    Yields (ofExcept c) a Q ↔ Q v a :=
  yields_inspect h

theorem yields_heap {Q : Heap x → Arena x → Prop} : Yields heap a Q ↔ Q a.heap a :=
  yields_inspect rfl

theorem yields_modifyHeap {f : Heap x → Heap x} {Q : Unit → Arena x → Prop} :
    Yields (modifyHeap f) a Q ↔ Q () { a with heap := f a.heap } := by
  constructor
  · rintro ⟨w, b, hrun, hQ⟩
    cases hrun
    exact hQ
  · intro hQ
    exact ⟨(), _, rfl, hQ⟩

theorem yields_modifyMemory {f : Memory x → Memory x} {Q : Unit → Arena x → Prop} :
    Yields (modifyMemory f) a Q ↔ Q () { a with memory := f a.memory } := by
  constructor
  · rintro ⟨w, b, hrun, hQ⟩
    cases hrun
    exact hQ
  · intro hQ
    exact ⟨(), _, rfl, hQ⟩

theorem yields_storeCell {address v : Nat} {Q : Unit → Arena x → Prop} (h : x.bytes ∣ address) :
    Yields (storeCell address v) a Q ↔ Q () { a with memory := a.memory.setCell address v } := by
  have hrun : storeCell address v a = .ok () { a with memory := a.memory.setCell address v } := by
    rw [storeCell, Memory.storeCell_eq a.memory h]
  constructor
  · rintro ⟨w, b, hrun', hQ⟩
    rw [hrun] at hrun'
    cases hrun'
    exact hQ
  · intro hQ
    exact ⟨(), _, hrun, hQ⟩

end AllocM

/-! ### Headers in memory -/

/-- A place where a header can lie: on whole cells inside the address space. -/
structure HeaderPlace (x : Xlen) (address : Nat) : Prop where
  dvd : x.bytes ∣ address
  stop_le : address + headerSize x ≤ x.space

theorem HeaderPlace.isCell {address k : Nat} (h : HeaderPlace x address) (hk : k < 4) :
    Memory.IsCell x (address + k * x.bytes) where
  dvd := Nat.dvd_add h.dvd (Nat.dvd_mul_left _ _)
  lt := by
    have hstop := h.stop_le
    have hcells : (k + 1) * x.bytes ≤ 4 * x.bytes := Nat.mul_le_mul_right _ hk
    have hpos := x.bytes_pos
    rw [Nat.succ_mul] at hcells
    unfold headerSize at hstop
    omega

theorem HeaderPlace.isCell_zero {address : Nat} (h : HeaderPlace x address) :
    Memory.IsCell x address := by
  simpa using h.isCell (k := 0) (by decide)

theorem HeaderPlace.isCell_one {address : Nat} (h : HeaderPlace x address) :
    Memory.IsCell x (address + x.bytes) := by
  simpa using h.isCell (k := 1) (by decide)

namespace Memory

/-- The four cells at the address of a header hold its fields. -/
structure Holds (m : Memory x) (b : Header) : Prop where
  size : m.cell b.address = b.size
  state : m.cell (b.address + x.bytes) = b.state
  next : m.cell (b.address + 2 * x.bytes) = b.next
  prev : m.cell (b.address + 3 * x.bytes) = b.prev

/-- Memory with the four cells of a header set. -/
def setHeader (m : Memory x) (b : Header) : Memory x :=
  (((m.setCell b.address b.size).setCell (b.address + x.bytes) b.state).setCell
    (b.address + 2 * x.bytes) b.next).setCell (b.address + 3 * x.bytes) b.prev

@[simp] theorem aligned_setHeader (m : Memory x) (b : Header) :
    (m.setHeader b).aligned = m.aligned := by
  simp [setHeader]

theorem holds_setHeader (m : Memory x) {b : Header} (hplace : HeaderPlace x b.address)
    (hsize : b.size < x.space) (hnext : b.next < x.space) (hprev : b.prev < x.space) :
    (m.setHeader b).Holds b := by
  have h0 := hplace.isCell_zero
  have h1 := hplace.isCell_one
  have h2 := hplace.isCell (k := 2) (by decide)
  have h3 := hplace.isCell (k := 3) (by decide)
  have hpos := x.bytes_pos
  have hstate : b.state < x.space := by
    unfold Header.state
    cases x <;> split <;> decide
  unfold setHeader
  constructor
  · rw [cell_setCell_of_ne _ _ h3 h0 (by omega), cell_setCell_of_ne _ _ h2 h0 (by omega),
      cell_setCell_of_ne _ _ h1 h0 (by omega), cell_setCell_self _ _ h0, Nat.mod_eq_of_lt hsize]
  · rw [cell_setCell_of_ne _ _ h3 h1 (by omega), cell_setCell_of_ne _ _ h2 h1 (by omega),
      cell_setCell_self _ _ h1, Nat.mod_eq_of_lt hstate]
  · rw [cell_setCell_of_ne _ _ h3 h2 (by omega), cell_setCell_self _ _ h2, Nat.mod_eq_of_lt hnext]
  · rw [cell_setCell_self _ _ h3, Nat.mod_eq_of_lt hprev]

theorem Holds.setNext {m : Memory x} {b : Header} (h : m.Holds b)
    (hplace : HeaderPlace x b.address) {next : Nat} (hnext : next < x.space) :
    (m.setCell (b.address + 2 * x.bytes) next).Holds { b with next := next } := by
  have h2 := hplace.isCell (k := 2) (by decide)
  have hpos := x.bytes_pos
  constructor
  · exact (cell_setCell_of_ne _ _ h2 hplace.isCell_zero (by omega)).trans h.size
  · exact (cell_setCell_of_ne _ _ h2 hplace.isCell_one (by omega)).trans h.state
  · exact (cell_setCell_self _ _ h2).trans (Nat.mod_eq_of_lt hnext)
  · exact (cell_setCell_of_ne _ _ h2 (hplace.isCell (by decide)) (by omega)).trans h.prev

theorem Holds.setPrev {m : Memory x} {b : Header} (h : m.Holds b)
    (hplace : HeaderPlace x b.address) {prev : Nat} (hprev : prev < x.space) :
    (m.setCell (b.address + 3 * x.bytes) prev).Holds { b with prev := prev } := by
  have h3 := hplace.isCell (k := 3) (by decide)
  have hpos := x.bytes_pos
  constructor
  · exact (cell_setCell_of_ne _ _ h3 hplace.isCell_zero (by omega)).trans h.size
  · exact (cell_setCell_of_ne _ _ h3 hplace.isCell_one (by omega)).trans h.state
  · exact (cell_setCell_of_ne _ _ h3 (hplace.isCell (by decide)) (by omega)).trans h.next
  · exact (cell_setCell_self _ _ h3).trans (Nat.mod_eq_of_lt hprev)

/-- Whether a header is stored depends on its own bytes only. -/
theorem Holds.congr {m m' : Memory x} {b : Header} (h : m.Holds b)
    (heq : ∀ c, b.address ≤ c → c < b.address + headerSize x → m'.loadByte c = m.loadByte c) :
    m'.Holds b := by
  have hcell (k : Nat) (hk : k < 4) :
      m'.cell (b.address + k * x.bytes) = m.cell (b.address + k * x.bytes) := by
    refine cell_congr fun c hlow hhigh => heq c (by omega) ?_
    have hcells : (k + 1) * x.bytes ≤ 4 * x.bytes := Nat.mul_le_mul_right _ hk
    rw [Nat.succ_mul] at hcells
    unfold headerSize
    omega
  constructor
  · have := hcell 0 (by decide)
    rw [Nat.zero_mul, Nat.add_zero] at this
    exact this.trans h.size
  · have := hcell 1 (by decide)
    rw [Nat.one_mul] at this
    exact this.trans h.state
  · exact (hcell 2 (by decide)).trans h.next
  · exact (hcell 3 (by decide)).trans h.prev

theorem loadByte_setHeader (m : Memory x) {b : Header} {c : Nat}
    (hplace : HeaderPlace x b.address) (hc : c < x.space)
    (hout : ¬ (b.address ≤ c ∧ c < b.address + headerSize x)) :
    (m.setHeader b).loadByte c = m.loadByte c := by
  unfold headerSize at hout
  unfold setHeader
  rw [loadByte_setCell _ _ (hplace.isCell (by decide)) hc (by omega),
    loadByte_setCell _ _ (hplace.isCell (by decide)) hc (by omega),
    loadByte_setCell _ _ hplace.isCell_one hc (by omega),
    loadByte_setCell _ _ hplace.isCell_zero hc (by omega)]

end Memory

theorem Header.load_of_holds {m : Memory x} {b : Header} (hdvd : x.bytes ∣ b.address)
    (h : m.Holds b) : Header.load m b.address = .ok b := by
  have hsize : m.loadCell b.address = .ok b.size := by
    rw [Memory.loadCell_eq m hdvd, h.size]
  have hstate : m.loadCell (b.address + x.bytes) = .ok b.state := by
    rw [Memory.loadCell_eq m (Nat.dvd_add hdvd (Nat.dvd_refl _)), h.state]
  have hnext : m.loadCell (b.address + 2 * x.bytes) = .ok b.next := by
    rw [Memory.loadCell_eq m (Nat.dvd_add hdvd (Nat.dvd_mul_left _ _)), h.next]
  have hprev : m.loadCell (b.address + 3 * x.bytes) = .ok b.prev := by
    rw [Memory.loadCell_eq m (Nat.dvd_add hdvd (Nat.dvd_mul_left _ _)), h.prev]
  unfold Header.load
  simp only [Nat.zero_mul, Nat.add_zero, Nat.one_mul, hsize, hstate, hnext, hprev]
  obtain ⟨address, size, free, next, prev⟩ := b
  cases free <;> rfl

namespace AllocM

variable {a : Arena x}

theorem yields_storeHeader {b : Header} {Q : Unit → Arena x → Prop}
    (hplace : HeaderPlace x b.address) :
    Yields (storeHeader b) a Q ↔ Q () { a with memory := a.memory.setHeader b } := by
  unfold storeHeader
  rw [yields_bind, yields_storeCell hplace.dvd, yields_bind, yields_storeCell hplace.isCell_one.dvd,
    yields_bind, yields_storeCell (hplace.isCell (by decide)).dvd,
    yields_storeCell (hplace.isCell (by decide)).dvd]
  rfl

theorem yields_setNext {address next : Nat} {Q : Unit → Arena x → Prop}
    (hplace : HeaderPlace x address) :
    Yields (setNext address next) a Q ↔
      Q () { a with memory := a.memory.setCell (address + 2 * x.bytes) next } :=
  yields_storeCell (hplace.isCell (by decide)).dvd

theorem yields_setPrev {address prev : Nat} {Q : Unit → Arena x → Prop}
    (hplace : HeaderPlace x address) :
    Yields (setPrev address prev) a Q ↔
      Q () { a with memory := a.memory.setCell (address + 3 * x.bytes) prev } :=
  yields_storeCell (hplace.isCell (by decide)).dvd

end AllocM

end Hart
