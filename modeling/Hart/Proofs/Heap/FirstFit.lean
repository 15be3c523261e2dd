/-
The place of an allocation.

A request for `need` bytes goes to the first place that there is for it.  For an arena with
the headers `hs`, `Arena.Offers a hs need p brk'` says that this place has the pointer `p`,
and that the mark is at `brk'` once it is taken:

* `Offers.reuse` — the lowest free block that is large enough;
* `Offers.extend` — else the last block, if it is free, ends at the mark and can grow;
* `Offers.append` — else a new block at the mark, rounded up to whole cells.

`Arena.FirstFit` says how a request is answered: null exactly where no place is offered, and
otherwise the place, with at most a header more than was asked for.

* `Offers.unique` — no request has two places;
* `Represents.offers`, `Represents.exists_allocated` — what is offered is what the allocator
  makes;
* `Answered.firstFit` — every answer is of this kind;
* `FirstFit.reuses` — a free block takes any request for as many bytes, or a lower one does;
* `Orderly.allocates` — on a heap in order every request is answered so, and what was
  released can be had again.

Design notes: `Allocated` tells the same three ways by what they do to the list of blocks.
Here they are told by where they lead, in terms of the headers that the walk finds.
-/
import Hart.Proofs.Heap.Pointers

namespace Hart

open AllocM

variable {x : Xlen}

/-! ### Sizes in whole cells -/

theorem lt_wholeCells_add (x : Xlen) (n : Nat) : n + (x.bytes - 1) < wholeCells x n + x.bytes :=
  Nat.lt_div_mul_add x.bytes_pos

theorem le_wholeCells (x : Xlen) (n : Nat) : n ≤ wholeCells x n := by
  have hlt := lt_wholeCells_add x n
  have hpos := x.bytes_pos
  omega

/-- Rounding up to whole cells does not go past a number of whole cells. -/
theorem wholeCells_le {n m : Nat} (hle : n ≤ m) (hdvd : x.bytes ∣ m) : wholeCells x n ≤ m := by
  obtain ⟨k, rfl⟩ := hdvd
  have hpos := x.bytes_pos
  have hquotient : (n + (x.bytes - 1)) / x.bytes < k + 1 := by
    refine (Nat.div_lt_iff_lt_mul hpos).2 ?_
    rw [Nat.succ_mul, Nat.mul_comm k]
    omega
  rw [wholeCells, Nat.mul_comm x.bytes]
  exact Nat.mul_le_mul_right _ (Nat.le_of_lt_succ hquotient)

theorem Heap.roundSize?_eq_some_iff {h : Heap x} {size need : Nat} :
    h.roundSize? size = some need ↔ need = wholeCells x size ∧
      size + (x.bytes - 1) < wordLimit ∧ wholeCells x size ≤ h.limit - h.base := by
  rw [Heap.roundSize?, Address.alignUp?_eq, Option.filter_eq_some_iff, decide_eq_true_iff]
  by_cases hfits : size + (x.bytes - 1) < wordLimit
  · rw [if_pos hfits, Option.some_inj]
    constructor
    · rintro ⟨rfl, hle⟩
      exact ⟨rfl, hfits, hle⟩
    · rintro ⟨rfl, -, hle⟩
      exact ⟨rfl, hle⟩
  · rw [if_neg hfits]
    simp [hfits]

/-- The first block that suits is the lowest one. -/
theorem Placed.le_of_suits {low high need : Nat} {l r : List Block} {b c : Block}
    (h : Placed x low (l ++ b :: r) high) (hl : ∀ d ∈ l, ¬ d.Suits need) (hc : c ∈ l ++ b :: r)
    (hsuits : c.Suits need) : b.address ≤ c.address := by
  obtain ⟨-, -, hr⟩ := placed_append_cons.1 h
  rcases List.mem_append.1 hc with hin | hin
  · exact absurd hsuits (hl c hin)
  rcases List.mem_cons.1 hin with rfl | hin
  · exact Nat.le_refl _
  · exact (b.address_lt_stop x).le.trans (hr.of_mem hin).1

/-- A block that is cut down keeps at most a header more than was asked for. -/
theorem size_cut_le {need : Nat} {b : Block} {r : List Block} :
    (cut x b need r).1.size ≤ need + headerSize x := by
  by_cases hspare : b.size - need ≤ headerSize x
  · rw [cut_of_le hspare]
    show b.size ≤ _
    omega
  · rw [cut_of_lt (Nat.not_le.1 hspare)]
    exact Nat.le_add_right _ _

theorem Allocated.size_le {need limit brk brk' : Nat} {bs bs' : List Block} {b : Block}
    (h : Allocated x need limit bs brk bs' brk' b) : b.size ≤ need + headerSize x := by
  cases h with
  | reuse hl hb => exact size_cut_le
  | extend hnone hfree hstop hlimit => exact Nat.le_add_right _ _
  | append hnone hlast haddress hlimit => exact Nat.le_add_right _ _

namespace Arena

/-! ### Places -/

/-- The last block is free, ends at the mark, and has room to grow to `need` bytes. -/
structure CanGrow (a : Arena x) (hs : List Header) (need : Nat) (b : Header) : Prop where
  mem : b ∈ hs
  free_eq : b.free = true
  address_eq : b.address = a.heap.tail
  stop_eq : b.stop x = a.heap.brk
  le_limit : b.payload x + need ≤ a.heap.limit

/-- The pointer of the first place for `need` bytes, and where the mark is when it is taken. -/
inductive Offers (a : Arena x) (hs : List Header) (need : Nat) : Nat → Nat → Prop
  | reuse {b : Header} (hb : b ∈ hs) (hsuits : b.block.Suits need)
      (hfirst : ∀ c ∈ hs, c.block.Suits need → b.address ≤ c.address) :
      Offers a hs need (b.payload x) a.heap.brk
  | extend {b : Header} (hnone : ∀ c ∈ hs, ¬ c.block.Suits need) (hgrow : a.CanGrow hs need b) :
      Offers a hs need (b.payload x) (b.payload x + need)
  | append (hnone : ∀ c ∈ hs, ¬ c.block.Suits need) (hstuck : ∀ b, ¬ a.CanGrow hs need b)
      (hlimit : wholeCells x a.heap.brk + headerSize x + need ≤ a.heap.limit) :
      Offers a hs need (wholeCells x a.heap.brk + headerSize x)
        (wholeCells x a.heap.brk + headerSize x + need)

/-- How a request for `size` bytes is answered with `q`. -/
structure FirstFit (size : Nat) (zeroed : Bool) (a : Arena x) (hs : List Header) (q : Nat)
    (a' : Arena x) : Prop where
  null_iff : q = null ↔ size = 0 ∨ wordLimit ≤ size + (x.bytes - 1) ∨
    a.heap.limit - a.heap.base < wholeCells x size ∨
      ∀ p brk', ¬ a.Offers hs (wholeCells x size) p brk'
  unchanged : q = null → a' = a
  offers : q ≠ null → a.Offers hs (wholeCells x size) q a'.heap.brk
  active_eq : q ≠ null → a'.heap.active = a.heap.active + 1
  granted : q ≠ null → ∃ hs', a'.Orderly hs' ∧ ∃ b ∈ hs', b.free = false ∧ b.payload x = q ∧
    wholeCells x size ≤ b.size ∧ b.size ≤ wholeCells x size + headerSize x ∧
      (zeroed = true → ∀ i < b.size, a'.memory.loadByte (q + i) = 0)

variable {a a' : Arena x} {bs bs' l r : List Block} {b c : Block} {need p q size brk' : Nat}
  {zeroed : Bool}

/-- The three ways exclude each other, so there is one place at most. -/
theorem Offers.unique {hs : List Header} {brk'' : Nat} (h : a.Offers hs need p brk')
    (h' : a.Offers hs need q brk'') : p = q ∧ brk' = brk'' := by
  cases h with
  | @reuse b hb hsuits hfirst =>
    cases h' with
    | @reuse c hc hsuits' hfirst' =>
      have haddress : b.address = c.address :=
        Nat.le_antisymm (hfirst c hc hsuits') (hfirst' b hb hsuits)
      exact ⟨congrArg (· + headerSize x) haddress, rfl⟩
    | extend hnone hgrow => exact absurd hsuits (hnone b hb)
    | append hnone hstuck hlimit => exact absurd hsuits (hnone b hb)
  | @extend b hnone hgrow =>
    cases h' with
    | @reuse c hc hsuits hfirst => exact absurd hsuits (hnone c hc)
    | @extend c hnone' hgrow' =>
      have haddress : b.address = c.address := hgrow.address_eq.trans hgrow'.address_eq.symm
      have hpayload : b.payload x = c.payload x := congrArg (· + headerSize x) haddress
      exact ⟨hpayload, congrArg (· + need) hpayload⟩
    | append hnone' hstuck hlimit => exact absurd hgrow (hstuck b)
  | append hnone hstuck hlimit =>
    cases h' with
    | @reuse c hc hsuits hfirst => exact absurd hsuits (hnone c hc)
    | @extend c hnone' hgrow => exact absurd hgrow (hstuck c)
    | append hnone' hstuck' hlimit' => exact ⟨rfl, rfl⟩

/-- A block that can grow is the last one. -/
theorem Represents.eq_concat_of_canGrow (h : a.Represents bs) {d : Header}
    (hgrow : a.CanGrow (headers null bs) need d) : ∃ l, bs = l ++ [d.block] := by
  obtain ⟨l, r, rfl⟩ := List.append_of_mem (block_mem_of_mem_headers hgrow.mem)
  obtain rfl : r = [] := h.toLaid.eq_nil_of_stop_eq hgrow.stop_eq
  exact ⟨l, rfl⟩

theorem exists_header_append_cons (l : List Block) (d : Block) (r : List Block) :
    ∃ e ∈ headers null (l ++ d :: r), e.block = d :=
  exists_header_of_mem null List.mem_append_cons_self

/-- What the allocator makes was on offer. -/
theorem Represents.offers (h : a.Represents bs)
    (hallocated : Allocated x need a.heap.limit bs a.heap.brk bs' brk' b) :
    a.Offers (headers null bs) need (b.payload x) brk' := by
  generalize hbrk : a.heap.brk = brk at hallocated
  cases hallocated with
  | @reuse l r d _ hl hd =>
    obtain ⟨e, he, rfl⟩ := exists_header_append_cons l d r
    have hpayload : (cut x e.block.take need r).1.payload x = e.payload x :=
      congrArg (· + headerSize x) (cut_address _ _ _)
    rw [hpayload, ← hbrk]
    refine .reuse he hd fun c hc hsuits => ?_
    exact h.placed.le_of_suits hl (block_mem_of_mem_headers hc) hsuits
  | @extend l d _ hnone hfree hstop hlimit =>
    obtain ⟨e, he, rfl⟩ := exists_header_append_cons l d []
    refine .extend (fun c hc => hnone _ (block_mem_of_mem_headers hc)) ?_
    exact ⟨he, hfree, h.tail_eq_last.symm, hstop.trans hbrk.symm, hlimit⟩
  | @append _ _ address hnone hlast haddress hlimit =>
    have hcells : address = wholeCells x a.heap.brk := hbrk ▸ Address.eq_wholeCells haddress
    rw [hcells] at hlimit ⊢
    refine .append (fun c hc => hnone _ (block_mem_of_mem_headers hc)) (fun d hgrow => ?_) hlimit
    obtain ⟨l, hl⟩ := h.eq_concat_of_canGrow hgrow
    exact hlast l d.block hl ⟨hgrow.free_eq, hgrow.stop_eq.trans hbrk⟩

/-- What is on offer can be made. -/
theorem Represents.exists_allocated (h : a.Represents bs)
    (hoffers : a.Offers (headers null bs) need p brk') :
    ∃ bs' b, Allocated x need a.heap.limit bs a.heap.brk bs' brk' b ∧ b.payload x = p := by
  cases hoffers with
  | @reuse d hd hsuits hfirst =>
    rcases exists_first_suits need bs with ⟨l, e, r, rfl, hl, he⟩ | hnone
    · refine ⟨_, _, .reuse hl he, ?_⟩
      obtain ⟨f, hf, rfl⟩ := exists_header_append_cons l e r
      -- The first block that suits and the lowest one are the same.
      have hle : f.address ≤ d.address :=
        h.placed.le_of_suits hl (block_mem_of_mem_headers hd) hsuits
      have haddress : f.address = d.address := Nat.le_antisymm hle (hfirst f hf he)
      rw [Block.payload, cut_address]
      exact congrArg (· + headerSize x) haddress
    · exact absurd hsuits (hnone _ (block_mem_of_mem_headers hd))
  | @extend d hnone hgrow =>
    obtain ⟨l, rfl⟩ := h.eq_concat_of_canGrow hgrow
    refine ⟨_, _, .extend (fun c hc => ?_) hgrow.free_eq hgrow.stop_eq hgrow.le_limit, rfl⟩
    obtain ⟨e, he, rfl⟩ := exists_header_of_mem null hc
    exact hnone e he
  | append hnone hstuck hlimit =>
    have hcells := lt_wholeCells_add x a.heap.brk
    have hword := h.window.limit_lt_wordLimit
    have hbytes := bytes_le_headerSize x
    have hbrk := le_wholeCells x a.heap.brk
    have hfits : a.heap.brk + (x.bytes - 1) < wordLimit := by omega
    refine ⟨_, ⟨wholeCells x a.heap.brk, need, false⟩, .append (fun c hc => ?_) ?_ ?_ hlimit, rfl⟩
    · obtain ⟨e, he, rfl⟩ := exists_header_of_mem null hc
      exact hnone e he
    · -- A last block at the mark would have grown, with a header to spare.
      rintro l d rfl ⟨hfree, hstop⟩
      obtain ⟨e, he, rfl⟩ := exists_header_append_cons l d []
      have hpayload : e.payload x ≤ e.block.stop x := Nat.le_add_right _ _
      exact hstuck e ⟨he, hfree, h.tail_eq_last.symm, hstop, by omega⟩
    · rw [Address.alignUp?_eq, if_pos hfits]

/-! ### Answers -/

theorem Answered.firstFit (h : a.Consistent bs) (hanswered : Answered size zeroed a bs q a') :
    FirstFit size zeroed a (headers null bs) q a' := by
  cases hanswered with
  | refused hnone =>
    refine ⟨iff_of_true rfl ?_, fun _ => rfl, fun hne => absurd rfl hne, fun hne => absurd rfl hne,
      fun hne => absurd rfl hne⟩
    by_cases hsize : size = 0
    · exact .inl hsize
    by_cases hfits : size + (x.bytes - 1) < wordLimit
    · by_cases hle : wholeCells x size ≤ a.heap.limit - a.heap.base
      · refine .inr (.inr (.inr fun p brk' hoffers => ?_))
        obtain ⟨bs', b, hallocated, -⟩ := h.exists_allocated hoffers
        exact hnone _ hsize (Heap.roundSize?_eq_some_iff.2 ⟨rfl, hfits, hle⟩) bs' brk' b hallocated
      · exact .inr (.inr (.inl (Nat.not_le.1 hle)))
    · exact .inr (.inl (Nat.not_lt.1 hfits))
  | @granted need _ bs' b hsize hround hallocated hconsistent hevolves hzero =>
    obtain ⟨rfl, hfits, hle⟩ := Heap.roundSize?_eq_some_iff.1 hround
    have hne : b.payload x ≠ null := b.payload_ne_null x
    have hoffers := h.offers hallocated
    refine ⟨iff_of_false hne ?_, fun hnull => absurd hnull hne, fun _ => hoffers, fun _ => ?_,
      fun _ => ⟨headers null bs', hconsistent.orderly, ?_⟩⟩
    · rintro (hnull | hword | hwide | hno)
      · exact hsize hnull
      · omega
      · omega
      · exact hno _ _ hoffers
    · rw [hconsistent.active_eq, hallocated.live_perm.length_eq, List.length_cons, h.active_eq]
    · obtain ⟨e, he, rfl⟩ := exists_header_of_mem null hallocated.mem
      refine ⟨e, he, hallocated.free_eq, rfl, hallocated.need_le, hallocated.size_le, ?_⟩
      intro hzeroed i hi
      exact hzero hzeroed _ ⟨Nat.le_add_right _ _, Nat.add_lt_add_left hi _⟩

/-! ### Space that was released -/

theorem le_size_joinNext (b : Block) (r : List Block) : b.size ≤ (joinNext x b r).1.size := by
  cases r with
  | nil => exact Nat.le_refl _
  | cons n r =>
    by_cases hmerge : Mergeable x b n
    · rw [joinNext_of_mergeable hmerge]
      exact Nat.le_add_right _ _
    · rw [joinNext_of_not_mergeable hmerge]

/-- What was released is in a free block that starts there or before. -/
theorem exists_free_released {low high : Nat} (h : Placed x low (l ++ b :: r) high) :
    ∃ c ∈ released x l b r, c.free = true ∧ b.size ≤ c.size ∧ c.address ≤ b.address := by
  obtain ⟨hl, -, -⟩ := placed_append_cons.1 h
  have hsize : b.size ≤ (joinNext x b.release r).1.size := le_size_joinNext b.release r
  have haddress : (joinNext x b.release r).1.address = b.address := joinNext_address b.release r
  have hfree : (joinNext x b.release r).1.free = true := joinNext_free b.release r
  rw [released]
  generalize joinNext x b.release r = d at hsize haddress hfree
  rcases List.eq_nil_or_concat l with rfl | ⟨l, p, rfl⟩
  · exact ⟨d.1, List.mem_cons_self, hfree, hsize, haddress.le⟩
  rw [List.concat_eq_append] at *
  rw [joinPrev_concat, joined]
  by_cases hmerge : Mergeable x p d.1
  · -- The block before it has taken it in.
    have hbefore : p.address ≤ b.address :=
      (p.address_lt_stop x).le.trans (hl.of_mem (by simp)).2.2
    rw [joinNext_of_mergeable hmerge]
    refine ⟨p.absorb x d.1, by simp, hmerge.1, ?_, hbefore⟩
    show b.size ≤ p.size + (headerSize x + d.1.size)
    omega
  · rw [joinNext_of_not_mergeable hmerge]
    exact ⟨d.1, by simp, hfree, hsize, haddress.le⟩

/-- A free block takes any request for as many bytes as it has, unless a lower one does. -/
theorem FirstFit.reuses (hfit : FirstFit size zeroed a (headers null bs) q a')
    (h : a.Consistent bs) (hc : c ∈ bs) (hfree : c.free = true) (hsize : size ≠ 0)
    (hle : size ≤ c.size) : q ≠ null ∧ q ≤ c.payload x ∧ a'.heap.brk = a.heap.brk := by
  obtain ⟨hlow, hwhole, hhigh⟩ := h.placed.of_mem hc
  have hsuits : c.Suits (wholeCells x size) := ⟨hfree, wholeCells_le hle hwhole.size_dvd⟩
  obtain ⟨e, he, rfl⟩ := exists_header_of_mem null hc
  have hne : q ≠ null := by
    have hbrk := h.brk_le
    have hword := h.window.limit_lt_wordLimit
    have hcells := lt_wholeCells_add x size
    have hbytes := bytes_le_headerSize x
    have hneed : wholeCells x size ≤ e.block.size := hsuits.2
    have hstop : e.block.stop x = e.block.address + headerSize x + e.block.size := rfl
    intro hnull
    rcases hfit.null_iff.1 hnull with hzero | hlarge | hwide | hno
    · exact hsize hzero
    · omega
    · omega
    · rcases exists_first_suits (wholeCells x size) bs with ⟨l, f, r, rfl, hl, hf⟩ | hnone
      · exact hno _ _ (h.offers (.reuse hl hf))
      · exact hnone _ hc hsuits
  have hoffers := hfit.offers hne
  refine ⟨hne, ?_⟩
  generalize hmark : a'.heap.brk = brk' at hoffers
  cases hoffers with
  | reuse hb hsuits' hfirst => exact ⟨Nat.add_le_add_right (hfirst e he hsuits) _, rfl⟩
  | extend hnone hgrow => exact absurd hsuits (hnone e he)
  | append hnone hstuck hlimit => exact absurd hsuits (hnone e he)

theorem Consistent.firstFit (h : a.Consistent bs) {f : AllocM x Nat}
    (hf : f = malloc size ∧ zeroed = a.heap.alwaysCalloc ∨ f = calloc size ∧ zeroed = true) :
    ∃ q a', f a = .ok q a' ∧ FirstFit size zeroed a (headers null bs) q a' := by
  obtain ⟨rfl, rfl⟩ | ⟨rfl, rfl⟩ := hf
  · obtain ⟨q, a', hrun, hanswered⟩ := h.yields_malloc size
    exact ⟨q, a', hrun, hanswered.firstFit h⟩
  · obtain ⟨q, a', hrun, hanswered⟩ := h.yields_allocate size true
    exact ⟨q, a', hrun, hanswered.firstFit h⟩

/-- On a heap in order a request takes the first place that there is for it, and is answered
with null only where there is none.  Once an allocation is released, a request for at most
its size is met there or lower, and the mark stays. -/
theorem Orderly.allocates {hs : List Header} (horderly : a.Orderly hs) :
    (∀ size, ∃ q a', malloc size a = .ok q a' ∧ FirstFit size a.heap.alwaysCalloc a hs q a') ∧
      (∀ size, ∃ q a', calloc size a = .ok q a' ∧ FirstFit size true a hs q a') ∧
      ∀ b ∈ hs, b.free = false → ∃ a₁, free (b.payload x) a = .ok () a₁ ∧
        ∀ size, 1 ≤ size → size ≤ b.size → ∀ f, f = malloc size ∨ f = calloc size →
          ∃ q a₂, f a₁ = .ok q a₂ ∧ q ≠ null ∧ q ≤ b.payload x ∧ a₂.heap.brk = a.heap.brk := by
  obtain ⟨bs, h, rfl⟩ := horderly.exists_consistent
  refine ⟨fun size => h.firstFit (.inl ⟨rfl, rfl⟩), fun size => h.firstFit (.inr ⟨rfl, rfl⟩), ?_⟩
  intro b hb hlive
  obtain ⟨l, r, hsplit⟩ := List.append_of_mem (block_mem_of_mem_headers hb)
  obtain ⟨_, a₁, hfree, h₁, hbrk, -⟩ := (hsplit ▸ h).yields_free hlive
  obtain ⟨c, hc, hcfree, hcsize, haddress⟩ := exists_free_released (hsplit ▸ h.placed)
  refine ⟨a₁, hfree, fun size hpos hle f hf => ?_⟩
  have hzeroed : ∃ zeroed, f = malloc size ∧ zeroed = a₁.heap.alwaysCalloc ∨
      f = calloc size ∧ zeroed = true := by
    rcases hf with hf | hf
    · exact ⟨_, .inl ⟨hf, rfl⟩⟩
    · exact ⟨_, .inr ⟨hf, rfl⟩⟩
  obtain ⟨zeroed, hzeroed⟩ := hzeroed
  obtain ⟨q, a₂, hrun, hfit⟩ := h₁.firstFit hzeroed
  obtain ⟨hne, hlow, hmark⟩ := hfit.reuses h₁ hc hcfree (Nat.ne_of_gt hpos) (hle.trans hcsize)
  exact ⟨q, a₂, hrun, hne, hlow.trans (Nat.add_le_add_right haddress _), hmark.trans hbrk⟩

/-- A released allocation below one that is live. -/
def hollow : Arena .rv32 :=
  ((((Session.fresh 0x1000 0x2000 false (Memory.empty .rv32 true)).perform (.malloc 24)).perform
    (.malloc 8)).perform (.free 0x1010)).arena

theorem orderly_hollow :
    hollow.Orderly [⟨0x1000, 24, true, 0x1028, 0⟩, ⟨0x1028, 8, false, 0, 0x1000⟩] := by
  have hw : Window .rv32 0x1000 0x2000 := by constructor <;> decide
  have hfresh := Session.reachable_fresh (x := .rv32) 0x1000 0x2000 false (Memory.empty .rv32 true)
  have hblocks : hollow.blocks =
      .ok [⟨0x1000, 24, true, 0x1028, 0⟩, ⟨0x1028, 8, false, 0, 0x1000⟩] := by
    decide +kernel
  exact (((hfresh.perform (.malloc 24)).perform (.malloc 8)).perform (.free 0x1010)).orderly
    hw hblocks

/-- The hole takes a smaller request whole, as the rest of it could hold a header only. -/
theorem allocates_hollow :
    ∃ a', malloc 8 hollow = .ok 0x1010 a' ∧
      FirstFit 8 false hollow [⟨0x1000, 24, true, 0x1028, 0⟩, ⟨0x1028, 8, false, 0, 0x1000⟩]
        0x1010 a' := by
  have hpolicy : hollow.heap.alwaysCalloc = false := by decide +kernel
  obtain ⟨q, a', hrun, hfit⟩ := orderly_hollow.allocates.1 8
  rw [hpolicy] at hfit
  have hq : q = 0x1010 := by
    have hanswer : verdict (malloc 8 hollow) = .ok 0x1010 := by decide +kernel
    rw [hrun, verdict, Except.ok.injEq] at hanswer
    exact hanswer
  subst hq
  exact ⟨a', hrun, hfit⟩

end Arena

end Hart
