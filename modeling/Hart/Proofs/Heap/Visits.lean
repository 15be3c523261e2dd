/-
How far a walk goes.

The allocator walks along its headers to list its blocks, to find a free one that is large
enough, and to find the block of a pointer.  Memory may hold anything, so the links may lead in
circles, backwards, or into payloads.  Here a walk is a loop that takes one step after the
other (`Walk.step`): it looks at an address, reads the header there, counts it, and gives up
when it has counted more headers than the heap has room for.  What it looks for is a `Search`.

* `Walk.reads_le`, `Walk.exists_answer_of_le` — whatever it looks for, a walk reads at most
  one header more than the heap has room for, and is over after as many steps;
* `Follows.answer` — the searches of the allocator answer as their walks do;
* `Arena.blocks_ne_ok_of_circles` — the blocks of a list with a circle are never listed;
* `Arena.Represents.unguarded` — a walk along blocks that are those of the arena never gives up;
* `Arena.walks_end` — all of this for the three walks, on any heap.

Design notes: the loop counts up and compares, where the searches count down and stop at zero.
The two meet in `Follows`, an equation that a search satisfies at each address.
-/
import Mathlib.Logic.Relation
import Hart.Proofs.Heap.FirstFit

namespace Hart

variable {x : Xlen} {α : Type}

/-- What a walk along the headers is for. -/
structure Search (α : Type) where
  /-- The answer at an address whose header need not be read, after the headers read so far,
  the latest first. -/
  early? : Nat → List Header → Option (Except HeapError α)
  /-- The answer at a header that was read. -/
  found? : Header → Option (Except HeapError α)

namespace Search

/-- The walk for the list of all blocks. -/
def everyBlock : Search (List Header) where
  early? address seen := if address = null then some (.ok seen.reverse) else none
  found? _ := none

/-- The walk for the first free block of at least `need` bytes. -/
def roomFor (need : Nat) : Search (Option Header) where
  early? address _ := if address = null then some (.ok none) else none
  found? b := if b.free ∧ need ≤ b.size then some (.ok (some b)) else none

/-- The walk for the live block with a given payload. -/
def owner (x : Xlen) (pointer : Nat) : Search Header where
  early? address _ :=
    if address ≠ null ∧ address + headerSize x ≤ pointer then none
    else some (.error (.invalidPointer pointer))
  found? b :=
    if b.payload x = pointer then
      some (if b.free then .error (.invalidPointer pointer) else .ok b)
    else none

/-- The search ends where the links do. -/
def EndsAtNull (s : Search α) : Prop := ∀ seen, s.early? null seen ≠ none

theorem endsAtNull_everyBlock : EndsAtNull everyBlock := fun _ => Option.some_ne_none _

theorem endsAtNull_roomFor (need : Nat) : EndsAtNull (roomFor need) :=
  fun _ => Option.some_ne_none _

theorem endsAtNull_owner (x : Xlen) (pointer : Nat) : EndsAtNull (owner x pointer) :=
  fun _ => by simp [owner]

end Search

/-- Where a walk is. -/
inductive Walk (α : Type) where
  /-- At an address, after it has read the headers in `seen`, the latest first. -/
  | going (address : Nat) (seen : List Header)
  /-- Over, with an answer, after so many headers. -/
  | ended (answer : Except HeapError α) (count : Nat)
  /-- Given up at an address, after so many headers. -/
  | lost (address count : Nat)
  deriving DecidableEq

namespace Walk

/-- The number of headers that were read. -/
def reads : Walk α → Nat
  | going _ seen => seen.length
  | ended _ count => count
  | lost _ count => count

/-- The answer of a walk that has come to its end. -/
def answer? : Walk α → Option (Except HeapError α)
  | going _ _ => none
  | ended answer _ => some answer
  | lost address _ => some (.error (.corrupted address))

/-- One step of a walk. -/
def step (a : Arena x) (s : Search α) : Walk α → Walk α
  | going address seen =>
    match s.early? address seen with
    | some answer => ended answer seen.length
    | none =>
      match a.header address with
      | .error e => ended (.error e) (seen.length + 1)
      | .ok b =>
        match s.found? b with
        | some answer => ended answer (seen.length + 1)
        | none =>
          if a.heap.maxBlocks < seen.length + 1 then lost address (seen.length + 1)
          else going b.next (b :: seen)
  | ended answer count => ended answer count
  | lost address count => lost address count

end Walk

namespace Arena

/-- The walk after `n` steps from the head of the list. -/
def walk (a : Arena x) (s : Search α) (n : Nat) : Walk α :=
  (Walk.step a s)^[n] (.going a.heap.head [])

end Arena

namespace Walk

variable {a : Arena x} {s : Search α} {address : Nat} {seen : List Header}

/-- The ways that a step from an address can go. -/
inductive Stepped (a : Arena x) (s : Search α) (address : Nat) (seen : List Header) :
    Walk α → Prop
  | early {v : Except HeapError α} (hearly : s.early? address seen = some v) :
      Stepped a s address seen (ended v seen.length)
  | refused {e : HeapError} (hearly : s.early? address seen = none)
      (hheader : a.header address = .error e) :
      Stepped a s address seen (ended (.error e) (seen.length + 1))
  | found {b : Header} {v : Except HeapError α} (hearly : s.early? address seen = none)
      (hheader : a.header address = .ok b) (hfound : s.found? b = some v) :
      Stepped a s address seen (ended v (seen.length + 1))
  | lost {b : Header} (hearly : s.early? address seen = none)
      (hheader : a.header address = .ok b) (hfound : s.found? b = none)
      (hmany : a.heap.maxBlocks ≤ seen.length) :
      Stepped a s address seen (lost address (seen.length + 1))
  | going {b : Header} (hearly : s.early? address seen = none)
      (hheader : a.header address = .ok b) (hfound : s.found? b = none)
      (hroom : seen.length < a.heap.maxBlocks) :
      Stepped a s address seen (going b.next (b :: seen))

theorem stepped (a : Arena x) (s : Search α) (address : Nat) (seen : List Header) :
    Stepped a s address seen (step a s (going address seen)) := by
  cases hearly : s.early? address seen with
  | some v =>
    have hstep : step a s (going address seen) = ended v seen.length := by
      simp only [step, hearly]
    exact hstep ▸ .early hearly
  | none =>
  cases hheader : a.header address with
  | error e =>
    have hstep : step a s (going address seen) = ended (.error e) (seen.length + 1) := by
      simp only [step, hearly, hheader]
    exact hstep ▸ .refused hearly hheader
  | ok b =>
  cases hfound : s.found? b with
  | some v =>
    have hstep : step a s (going address seen) = ended v (seen.length + 1) := by
      simp only [step, hearly, hheader, hfound]
    exact hstep ▸ .found hearly hheader hfound
  | none =>
  by_cases hmany : a.heap.maxBlocks < seen.length + 1
  · have hstep : step a s (going address seen) = lost address (seen.length + 1) := by
      simp only [step, hearly, hheader, hfound, hmany, if_true]
    exact hstep ▸ .lost hearly hheader hfound (Nat.le_of_lt_succ hmany)
  · have hstep : step a s (going address seen) = going b.next (b :: seen) := by
      simp only [step, hearly, hheader, hfound, hmany, if_false]
    exact hstep ▸ .going hearly hheader hfound (Nat.lt_of_succ_le (Nat.not_lt.1 hmany))

/-! ### Any walk ends -/

/-- A walk that goes on has read no more headers than the heap has room for, and one that has
ended at most one more. -/
def Within (a : Arena x) : Walk α → Prop
  | going _ seen => seen.length ≤ a.heap.maxBlocks
  | ended _ count => count ≤ a.heap.maxBlocks + 1
  | lost _ count => count ≤ a.heap.maxBlocks + 1

theorem Within.step {w : Walk α} (h : w.Within a) : (w.step a s).Within a := by
  cases w with
  | ended answer count => exact h
  | lost address count => exact h
  | going address seen =>
    have hseen : seen.length ≤ a.heap.maxBlocks := h
    have hstepped := stepped a s address seen
    generalize Walk.step a s (.going address seen) = w at hstepped
    cases hstepped with
    | early hearly => exact hseen.trans (Nat.le_succ _)
    | refused hearly hheader => exact Nat.succ_le_succ hseen
    | found hearly hheader hfound => exact Nat.succ_le_succ hseen
    | lost hearly hheader hfound hmany => exact Nat.succ_le_succ hseen
    | going hearly hheader hfound hroom => exact hroom

theorem within_walk (a : Arena x) (s : Search α) (n : Nat) : (a.walk s n).Within a := by
  induction n with
  | zero => exact Nat.zero_le _
  | succ n ih =>
    rw [Arena.walk, Function.iterate_succ_apply']
    exact ih.step

/-- Whatever it looks for and wherever the links lead, a walk reads at most one header more
than the heap has room for. -/
theorem reads_le (a : Arena x) (s : Search α) (n : Nat) :
    (a.walk s n).reads ≤ a.heap.maxBlocks + 1 := by
  have h := within_walk a s n
  cases hw : a.walk s n with
  | going address seen =>
    rw [hw] at h
    exact Nat.le_succ_of_le h
  | ended answer count =>
    rw [hw] at h
    exact h
  | lost address count =>
    rw [hw] at h
    exact h

/-- A walk that goes on has read a header at every step. -/
theorem length_seen_of_walk {n : Nat} (h : a.walk s n = .going address seen) :
    seen.length = n := by
  induction n generalizing address seen with
  | zero => cases h; rfl
  | succ n ih =>
    rw [Arena.walk, Function.iterate_succ_apply'] at h
    change Walk.step a s (a.walk s n) = _ at h
    cases hw : a.walk s n with
    | ended answer count => rw [hw] at h; cases h
    | lost address count => rw [hw] at h; cases h
    | going address' seen' =>
      rw [hw] at h
      have hstepped := stepped a s address' seen'
      rw [h] at hstepped
      cases hstepped with
      | going hearly hheader hfound hroom => exact congrArg Nat.succ (ih hw)

/-- So it is ended after as many steps as it may read headers. -/
theorem exists_answer_of_le {n : Nat} (hn : a.heap.maxBlocks + 1 ≤ n) :
    ∃ v, (a.walk s n).answer? = some v := by
  cases hw : a.walk s n with
  | going address seen =>
    -- A walk that still goes on has read a header at each step, which is more than it may.
    have hlength := length_seen_of_walk hw
    have hwithin := within_walk a s n
    rw [hw] at hwithin
    have hseen : seen.length ≤ a.heap.maxBlocks := hwithin
    omega
  | ended answer count => exact ⟨_, rfl⟩
  | lost address count => exact ⟨_, rfl⟩

end Walk

/-! ### The searches of the allocator -/

/-- The function answers as the walk does, when it may read `fuel` headers after the next. -/
def Follows (a : Arena x) (s : Search α)
    (f : Nat → Nat → List Header → Except HeapError α) : Prop :=
  ∀ fuel address seen, f fuel address seen =
    match s.early? address seen with
    | some v => v
    | none =>
      match a.header address with
      | .error e => .error e
      | .ok b =>
        match s.found? b with
        | some v => v
        | none =>
          match fuel with
          | 0 => .error (.corrupted address)
          | fuel + 1 => f fuel b.next (b :: seen)

/-- What the walk will answer in the end. -/
def Walk.promise (a : Arena x) (f : Nat → Nat → List Header → Except HeapError α) :
    Walk α → Except HeapError α
  | going address seen => f (a.heap.maxBlocks - seen.length) address seen
  | ended answer _ => answer
  | lost address _ => .error (.corrupted address)

namespace Follows

variable {a : Arena x} {s : Search α} {f : Nat → Nat → List Header → Except HeapError α}

theorem promise_step (h : Follows a s f) (w : Walk α) :
    (w.step a s).promise a f = w.promise a f := by
  cases w with
  | ended answer count => rfl
  | lost address count => rfl
  | going address seen =>
    have hstepped := Walk.stepped a s address seen
    generalize Walk.step a s (.going address seen) = w at hstepped
    have hf := h (a.heap.maxBlocks - seen.length) address seen
    cases hstepped with
    | early hearly =>
      simp only [hearly] at hf
      exact hf.symm
    | refused hearly hheader =>
      simp only [hearly, hheader] at hf
      exact hf.symm
    | found hearly hheader hfound =>
      simp only [hearly, hheader, hfound] at hf
      exact hf.symm
    | lost hearly hheader hfound hmany =>
      rw [Nat.sub_eq_zero_of_le hmany] at hf
      simp only [hearly, hheader, hfound] at hf
      rw [Walk.promise, Walk.promise, Nat.sub_eq_zero_of_le hmany, hf]
    | @going b hearly hheader hfound hroom =>
      obtain ⟨k, hk⟩ := Nat.exists_eq_succ_of_ne_zero (Nat.sub_ne_zero_of_lt hroom)
      rw [hk] at hf
      simp only [hearly, hheader, hfound] at hf
      have hrest : a.heap.maxBlocks - (b :: seen).length = k := by
        rw [List.length_cons]
        omega
      rw [Walk.promise, Walk.promise, hrest, hk, hf]

/-- Once the walk is over it has answered as the function does. -/
theorem answer (h : Follows a s f) {n : Nat} (hn : a.heap.maxBlocks + 1 ≤ n) :
    (a.walk s n).answer? = some (f a.heap.maxBlocks a.heap.head []) := by
  -- No step changes what the walk will answer in the end.
  have hpromise : (a.walk s n).promise a f = f a.heap.maxBlocks a.heap.head [] := by
    clear hn
    induction n with
    | zero => rfl
    | succ n ih =>
      rw [Arena.walk, Function.iterate_succ_apply']
      exact (h.promise_step _).trans ih
  obtain ⟨v, hv⟩ := Walk.exists_answer_of_le (s := s) hn
  rw [← hpromise]
  cases hw : a.walk s n with
  | going address seen => rw [hw] at hv; cases hv
  | ended answer count => rfl
  | lost address count => rfl

end Follows

namespace Arena

variable {a : Arena x} {hs : List Header} {address : Nat}

theorem follows_everyBlock (a : Arena x) :
    Follows a .everyBlock fun fuel address seen =>
      (a.blocksFrom fuel address seen).map List.reverse := by
  intro fuel address seen
  conv_lhs => unfold blocksFrom
  by_cases hnull : address = null
  · simp only [Search.everyBlock, hnull, if_true]
    rfl
  · simp only [Search.everyBlock, hnull, if_false]
    cases a.header address with
    | error e => rfl
    | ok b =>
      cases fuel with
      | zero => rfl
      | succ n => rfl

theorem follows_roomFor (a : Arena x) (need : Nat) :
    Follows a (.roomFor need) fun fuel address _ => a.firstFitFrom need fuel address := by
  intro fuel address seen
  conv_lhs => unfold firstFitFrom
  by_cases hnull : address = null
  · simp only [Search.roomFor, hnull, if_true]
  · simp only [Search.roomFor, hnull, if_false]
    cases a.header address with
    | error e => rfl
    | ok b =>
      by_cases hsuits : b.free = true ∧ need ≤ b.size
      · simp only [hsuits, and_self, if_true]
      · cases fuel with
        | zero => simp only [hsuits, if_false]
        | succ n => simp only [hsuits, if_false]

theorem follows_owner (a : Arena x) (pointer : Nat) :
    Follows a (.owner x pointer) fun fuel address _ => a.allocatedFrom pointer fuel address := by
  intro fuel address seen
  conv_lhs => unfold allocatedFrom
  by_cases hgo : address ≠ null ∧ address + headerSize x ≤ pointer
  · simp only [Search.owner, if_pos hgo]
    cases a.header address with
    | error e => rfl
    | ok b =>
      by_cases hpayload : b.payload x = pointer
      · simp only [hpayload, if_true]
      · cases fuel with
        | zero => simp only [hpayload, if_false]
        | succ n => simp only [hpayload, if_false]
  · simp only [Search.owner, if_neg hgo]

/-- The walk reads at most one header more than the heap has room for, and then it has come to
an end with the answer `v`. -/
structure EndsWith (a : Arena x) (s : Search α) (v : Except HeapError α) : Prop where
  reads_le : ∀ n, (a.walk s n).reads ≤ (a.heap.brk - a.heap.base) / headerSize x + 2
  answer : ∀ n, (a.heap.brk - a.heap.base) / headerSize x + 2 ≤ n →
    (a.walk s n).answer? = some v

theorem endsWith_of_follows {s : Search α} {f : Nat → Nat → List Header → Except HeapError α}
    (h : Follows a s f) : a.EndsWith s (f a.heap.maxBlocks a.heap.head []) :=
  ⟨Walk.reads_le a s, fun _ hn => h.answer hn⟩

/-! ### Lists that lead in circles -/

/-- The link to the next header, in the cell for it behind an address, leads from `p` to `q`. -/
def Leads (a : Arena x) (p q : Nat) : Prop :=
  p ≠ null ∧ a.memory.loadCell (p + 2 * x.bytes) = .ok q

/-- The links from an address on come back to where they were. -/
def Circles (a : Arena x) (p : Nat) : Prop :=
  ∃ q, Relation.ReflTransGen a.Leads p q ∧ Relation.TransGen a.Leads q q

theorem Leads.eq_next {b : Header} {p q : Nat} (h : a.Leads p q) (hheader : a.header p = .ok b) :
    b.next = q := by
  have hcell := (Header.load_eq_ok (header_eq_ok hheader).2.1).2.2.2.1
  rw [h.2] at hcell
  exact (Except.ok.inj hcell).symm

/-- A circle goes on behind every address that leads to it. -/
theorem Circles.exists_leads {p : Nat} (h : a.Circles p) : ∃ q, a.Leads p q ∧ a.Circles q := by
  obtain ⟨q, hpq, hcircle⟩ := h
  rcases Relation.ReflTransGen.cases_head hpq with rfl | ⟨r, hpr, hrq⟩
  · obtain ⟨r, hpr, hrp⟩ := Relation.TransGen.head'_iff.1 hcircle
    exact ⟨r, hpr, p, hrp, hcircle⟩
  · exact ⟨r, hpr, q, hrq, hcircle⟩

/-- A walk for all blocks that has got into a circle stays in it, and any answer that it
comes to is an error. -/
def InCircle (a : Arena x) : Walk (List Header) → Prop
  | .going address _ => a.Circles address
  | .ended answer _ => ∃ e, answer = .error e
  | .lost _ _ => True

theorem InCircle.step {w : Walk (List Header)} (h : a.InCircle w) :
    a.InCircle (w.step a .everyBlock) := by
  cases w with
  | ended answer count => exact h
  | lost address count => trivial
  | going address seen =>
    obtain ⟨q, hleads, hcircles⟩ := Circles.exists_leads h
    have hstepped := Walk.stepped a .everyBlock address seen
    generalize Walk.step a .everyBlock (.going address seen) = w at hstepped
    cases hstepped with
    | early hearly => exact absurd hearly (by simp [Search.everyBlock, hleads.1])
    | refused hearly hheader => exact ⟨_, rfl⟩
    | found hearly hheader hfound => cases hfound
    | lost hearly hheader hfound hmany => trivial
    | going hearly hheader hfound hroom =>
      rw [InCircle, hleads.eq_next hheader]
      exact hcircles

/-- The blocks of a list with a circle are never listed. -/
theorem blocks_ne_ok_of_circles (h : a.Circles a.heap.head) (hs : List Header) :
    a.blocks ≠ .ok hs := by
  have hin (n : Nat) : a.InCircle (a.walk .everyBlock n) := by
    induction n with
    | zero => exact h
    | succ n ih =>
      rw [walk, Function.iterate_succ_apply']
      exact ih.step
  have hanswer := (follows_everyBlock a).answer (Nat.le_refl _)
  have hcircle := hin (a.heap.maxBlocks + 1)
  intro hblocks
  rw [show (a.blocksFrom _ _ _).map List.reverse = .ok hs from hblocks] at hanswer
  cases hw : a.walk .everyBlock (a.heap.maxBlocks + 1) with
  | going address seen => rw [hw] at hanswer; cases hanswer
  | lost address count => rw [hw] at hanswer; cases hanswer
  | ended answer count =>
    rw [hw] at hanswer hcircle
    obtain ⟨e, rfl⟩ := hcircle
    cases hanswer

/-! ### Lists that end -/

/-- All blocks that are listed lie between the base and the mark. -/
theorem inside_of_mem_blocks (h : a.blocks = .ok hs) {b : Header} (hb : b ∈ hs) :
    a.heap.base ≤ b.address ∧ b.address + headerSize x + b.size ≤ a.heap.brk := by
  obtain ⟨c, hheader⟩ := (walked_of_blocks h).header_eq hb
  obtain ⟨hcontains, -, -, -, hstop⟩ := header_eq_ok hheader
  rw [address_of_header hheader]
  rw [Header.stop, Header.payload, address_of_header hheader] at hstop
  exact ⟨hcontains.1, hstop⟩

/-- A walk along headers that were there before reads at most `N` of them. -/
def OnTrack (a : Arena x) (N : Nat) : Walk α → Prop
  | .going address seen => ∃ hs, a.Walked address hs ∧ seen.length + hs.length ≤ N
  | .ended _ count => count ≤ N
  | .lost _ _ => False

/-- A walk that has to read a header on such a list finds it. -/
theorem Walked.eq_cons {s : Search α} (h : a.Walked address hs) (hend : s.EndsAtNull)
    {seen : List Header} (hearly : s.early? address seen = none) :
    ∃ b r, hs = b :: r ∧ a.header address = .ok b ∧ a.Walked b.next r := by
  cases hs with
  | nil =>
    have hnull : address = null := h
    subst hnull
    exact absurd hearly (hend seen)
  | cons b r => exact ⟨b, r, rfl, h⟩

theorem OnTrack.step {s : Search α} {w : Walk α} {N : Nat} (h : a.OnTrack N w)
    (hend : s.EndsAtNull) (hN : N ≤ a.heap.maxBlocks) : a.OnTrack N (w.step a s) := by
  cases w with
  | ended answer count => exact h
  | lost address count => exact h
  | going address seen =>
    obtain ⟨hs, hwalked, hlength⟩ := h
    have hstepped := Walk.stepped a s address seen
    generalize Walk.step a s (.going address seen) = w at hstepped
    -- A header that is read moves from the list ahead to those that were seen.
    cases hstepped with
    | early hearly => exact Nat.le_of_add_right_le hlength
    | refused hearly hheader =>
      obtain ⟨b, r, -, hb, -⟩ := hwalked.eq_cons hend hearly
      rw [hb] at hheader
      cases hheader
    | found hearly hheader hfound =>
      obtain ⟨b, r, rfl, -, -⟩ := hwalked.eq_cons hend hearly
      rw [List.length_cons] at hlength
      show seen.length + 1 ≤ N
      omega
    | lost hearly hheader hfound hmany =>
      obtain ⟨b, r, rfl, -, -⟩ := hwalked.eq_cons hend hearly
      rw [List.length_cons] at hlength
      show False
      omega
    | going hearly hheader hfound hroom =>
      obtain ⟨b, r, rfl, hb, hr⟩ := hwalked.eq_cons hend hearly
      rw [hb] at hheader
      cases hheader
      rw [List.length_cons] at hlength
      refine ⟨r, hr, ?_⟩
      rw [List.length_cons]
      omega

/-- On blocks that are those of the arena no walk ever gives up, and none reads more headers
than there are. -/
theorem Represents.onTrack {bs : List Block} (h : a.Represents bs) {s : Search α}
    (hend : s.EndsAtNull) (n : Nat) : a.OnTrack bs.length (a.walk s n) := by
  induction n with
  | zero =>
    refine ⟨headers null bs, walked_of_blocks h.blocks_eq, ?_⟩
    rw [List.length_nil, Nat.zero_add, ← List.length_map Header.block, map_block_headers]
  | succ n ih =>
    rw [walk, Function.iterate_succ_apply']
    exact ih.step hend h.toLaid.length_lt.le

/-- The guard against too many headers never stops the walk, which reads at most `N` of them. -/
def Unguarded (a : Arena x) (s : Search α) (N : Nat) : Prop :=
  ∀ n, (a.walk s n).reads ≤ N ∧ ∀ address count, a.walk s n ≠ .lost address count

theorem Represents.unguarded {bs : List Block} (h : a.Represents bs) {s : Search α}
    (hend : s.EndsAtNull) : a.Unguarded s bs.length := by
  intro n
  have htrack := h.onTrack hend n
  cases hw : a.walk s n with
  | going address seen =>
    rw [hw] at htrack
    obtain ⟨hs, -, hlength⟩ := htrack
    exact ⟨Nat.le_of_add_right_le hlength, fun _ _ heq => by cases heq⟩
  | ended answer count =>
    rw [hw] at htrack
    exact ⟨htrack, fun _ _ heq => by cases heq⟩
  | lost address count =>
    rw [hw] at htrack
    exact htrack.elim

/-- Whatever is in memory, the three walks of the allocator end: the one for all blocks, the
one of a request for a free block, and the one of a release for its block, which is not even
begun for a pointer outside of the heap.  A list with a circle is refused, what is listed lies
in the heap, and on blocks that are those of the arena the guard is never in the way. -/
theorem walks_end (a : Arena x) :
    (a.EndsWith .everyBlock a.blocks ∧ (∀ need, a.EndsWith (.roomFor need) (a.firstFit? need)) ∧
      ∀ pointer, if a.heap.base + headerSize x ≤ pointer ∧ pointer < a.heap.brk
        then a.EndsWith (.owner x pointer) (a.allocated pointer)
        else a.allocated pointer = .error (.invalidPointer pointer)) ∧
    (a.Circles a.heap.head → ∀ hs, a.blocks ≠ .ok hs) ∧
    (∀ hs, a.blocks = .ok hs → ∀ b ∈ hs,
      a.heap.base ≤ b.address ∧ b.address + headerSize x + b.size ≤ a.heap.brk) ∧
    ∀ bs, a.Represents bs → a.Unguarded .everyBlock bs.length ∧
      (∀ need, a.Unguarded (.roomFor need) bs.length) ∧
        ∀ pointer, a.Unguarded (.owner x pointer) bs.length := by
  refine ⟨⟨endsWith_of_follows (follows_everyBlock a),
    fun need => endsWith_of_follows (follows_roomFor a need), fun pointer => ?_⟩,
    blocks_ne_ok_of_circles, fun hs h b hb => inside_of_mem_blocks h hb, fun bs h => ?_⟩
  · rw [allocated]
    split
    · exact endsWith_of_follows (follows_owner a pointer)
    · rfl
  · exact ⟨h.unguarded Search.endsAtNull_everyBlock,
      fun need => h.unguarded (Search.endsAtNull_roomFor need),
      fun pointer => h.unguarded (Search.endsAtNull_owner x pointer)⟩

/-- A heap whose only header is linked to itself. -/
def loop : Arena .rv32 where
  heap := { Heap.empty .rv32 0x1000 0x2000 false with brk := 0x1018, head := 0x1000, tail := 0x1000 }
  memory := ((((Memory.empty .rv32 true).storeByte 0x1000 8).storeByte 0x1009 0x10).storeByte
    0x100D 0x10)

theorem leads_loop : loop.Leads 0x1000 0x1000 := ⟨by decide, by decide +kernel⟩

/-- The walk around the loop is given up at the third header, and the walk along a list of two
reads no more than these. -/
theorem walks_end_loop :
    (loop.walk .everyBlock 4).answer? = some loop.blocks ∧ (∀ hs, loop.blocks ≠ .ok hs) ∧
      loop.walk .everyBlock 3 = .lost 0x1000 3 ∧ hollow.Unguarded .everyBlock 2 := by
  have hcircles : loop.Circles loop.heap.head := ⟨0x1000, .refl, .single leads_loop⟩
  obtain ⟨bs, h, hheaders⟩ := orderly_hollow.exists_consistent
  have hlength : bs.length = 2 := by
    rw [← map_block_headers null bs, ← hheaders]
    rfl
  have hunguarded := ((walks_end hollow).2.2.2 bs h.toRepresents).1
  rw [hlength] at hunguarded
  exact ⟨(walks_end loop).1.1.answer 4 (by decide), (walks_end loop).2.1 hcircles,
    by decide +kernel, hunguarded⟩

end Arena

end Hart
