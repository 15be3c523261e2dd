/-
What an allocation does to the list of blocks.

`Allocated x need limit bs brk bs' brk' b` says that `b` is the block that a
request for `need` bytes makes of the list `bs` below the mark `brk`, and that
`bs'` and `brk'` are list and mark afterwards.  There are three ways:

* `reuse` — the first free block that is large enough, cut down;
* `extend` — the free last block, grown upwards when it ends at the mark;
* `append` — a new block at the mark.

An arena whose list has no adjacent free blocks and whose count is right is
`Consistent`.  On such an arena `Consistent.yields_allocate` says that a request
succeeds, and that it answers null only when there is none of the three ways.

Design notes: the three ways exclude each other by their premises, as the
allocator tries them in this order.
-/
import Hart.Proofs.Heap.Links

namespace Hart

open AllocM

variable {x : Xlen} {R : Set Nat}

theorem Address.and_bytes_sub_one (x : Xlen) (v : Nat) : v &&& (x.bytes - 1) = v % x.bytes := by
  cases x
  · exact Nat.and_two_pow_sub_one_eq_mod v 2
  · exact Nat.and_two_pow_sub_one_eq_mod v 3

theorem Address.alignUp?_spec {v w : Nat} (h : Address.alignUp? v x.bytes = some w) :
    x.bytes ∣ w ∧ v ≤ w ∧ w < v + x.bytes := by
  have hpos := x.bytes_pos
  have hmod := Nat.mod_lt (v + (x.bytes - 1)) hpos
  unfold Address.alignUp? at h
  dsimp only at h
  rw [Address.and_bytes_sub_one] at h
  split at h
  · have heq := Option.some.inj h
    refine ⟨?_, by omega, by omega⟩
    rw [← heq]
    exact Nat.dvd_sub_mod _
  · cases h

theorem Address.alignUp?_of_dvd {v : Nat} (hdvd : x.bytes ∣ v) (hv : v + (x.bytes - 1) < wordLimit) :
    Address.alignUp? v x.bytes = some v := by
  obtain ⟨k, rfl⟩ := hdvd
  have hmod : (x.bytes * k + (x.bytes - 1)) % x.bytes = x.bytes - 1 := by
    rw [Nat.mul_add_mod]
    exact Nat.mod_eq_of_lt (Nat.sub_lt x.bytes_pos Nat.one_pos)
  unfold Address.alignUp?
  dsimp only
  rw [if_pos hv, Address.and_bytes_sub_one, hmod, Nat.add_sub_cancel]

/-- A rounded request is a positive number of whole cells. -/
theorem Heap.roundSize?_spec {h : Heap x} {size need : Nat} (hsize : size ≠ 0)
    (hround : h.roundSize? size = some need) :
    0 < need ∧ x.bytes ∣ need ∧ size ≤ need ∧ need < size + x.bytes := by
  obtain ⟨halign, -⟩ := Option.filter_eq_some_iff.1 hround
  obtain ⟨hdvd, hle, hlt⟩ := Address.alignUp?_spec halign
  exact ⟨Nat.lt_of_lt_of_le (Nat.pos_of_ne_zero hsize) hle, hdvd, hle, hlt⟩

/-- In a window a rounded request is not rounded further. -/
theorem Window.roundSize?_eq_self {h : Heap x} (hw : Window x h.base h.limit) {size need : Nat}
    (hround : h.roundSize? size = some need) : h.roundSize? need = some need := by
  obtain ⟨halign, hle⟩ := Option.filter_eq_some_iff.1 hround
  have hdvd := (Address.alignUp?_spec halign).1
  have hbytes : x.bytes ≤ h.base := Nat.le_of_dvd hw.base_pos hw.base_dvd
  have hlimit := hw.limit_lt_wordLimit
  have hneed : need ≤ h.limit - h.base := by simpa using hle
  refine Option.filter_eq_some_iff.2 ⟨Address.alignUp?_of_dvd hdvd ?_, hle⟩
  have hpos := x.bytes_pos
  have hroom := hw.room
  omega

/-- The block, allocated. -/
def Block.take (b : Block) : Block := { b with free := false }

/-- The block that a request makes of a list, with list and mark afterwards. -/
inductive Allocated (x : Xlen) (need limit : Nat) :
    List Block → Nat → List Block → Nat → Block → Prop
  | reuse {l r : List Block} {b : Block} {brk : Nat} (hl : ∀ c ∈ l, ¬ c.Suits need)
      (hb : b.Suits need) :
      Allocated x need limit (l ++ b :: r) brk
        (l ++ (cut x b.take need r).1 :: (cut x b.take need r).2) brk (cut x b.take need r).1
  | extend {l : List Block} {b : Block} {brk : Nat} (hnone : ∀ c ∈ l ++ [b], ¬ c.Suits need)
      (hfree : b.free = true) (hstop : b.stop x = brk) (hlimit : b.payload x + need ≤ limit) :
      Allocated x need limit (l ++ [b]) brk (l ++ [b.take.resize need]) (b.payload x + need)
        (b.take.resize need)
  | append {bs : List Block} {brk address : Nat} (hnone : ∀ c ∈ bs, ¬ c.Suits need)
      (hlast : ∀ l b, bs = l ++ [b] → ¬ (b.free = true ∧ b.stop x = brk))
      (haddress : Address.alignUp? brk x.bytes = some address)
      (hlimit : address + headerSize x + need ≤ limit) :
      Allocated x need limit bs brk (bs ++ [⟨address, need, false⟩])
        (address + headerSize x + need) ⟨address, need, false⟩

namespace Allocated

variable {need limit brk brk' : Nat} {bs bs' : List Block} {b : Block}

theorem free_eq (h : Allocated x need limit bs brk bs' brk' b) : b.free = false := by
  cases h with
  | reuse hl hb => rw [cut_free]; rfl
  | extend hnone hfree hstop hlimit => rfl
  | append hnone hlast haddress hlimit => rfl

theorem mem (h : Allocated x need limit bs brk bs' brk' b) : b ∈ bs' := by
  cases h <;> simp

theorem need_le (h : Allocated x need limit bs brk bs' brk' b) : need ≤ b.size := by
  cases h with
  | reuse hl hb => exact le_size_cut hb.2
  | extend hnone hfree hstop hlimit => exact Nat.le_refl _
  | append hnone hlast haddress hlimit => exact Nat.le_refl _

/-- The new block joins the allocated ones, which stay as they are. -/
theorem live_perm (h : Allocated x need limit bs brk bs' brk' b) :
    (live bs').Perm (b :: live bs) := by
  cases h with
  | reuse hl hb =>
    rw [live_append, live_cut, if_neg Bool.noConfusion, live_append, live_cons_of_free hb.1]
    exact List.perm_middle
  | extend hnone hfree hstop hlimit =>
    rw [live_append, live_append, live_cons_of_free hfree, live_cons_of_not_free rfl]
    exact List.perm_middle
  | append hnone hlast haddress hlimit =>
    rw [live_append, live_cons_of_not_free rfl]
    exact List.perm_middle.trans (by simp [live])

theorem apart (h : Allocated x need limit bs brk bs' brk' b) (hbs : Apart x bs) :
    Apart x bs' := by
  cases h with
  | reuse hl hb =>
    obtain ⟨hl, hr⟩ := apart_append_cons.1 hbs
    exact apart_append_cons.2
      ⟨apart_concat (apart_left hl) (by rw [cut_free]; rfl), apart_cut rfl hr.tail⟩
  | extend hnone hfree hstop hlimit => exact apart_concat (apart_left hbs) rfl
  | append hnone hlast haddress hlimit => exact apart_concat hbs rfl

theorem placed {low : Nat} (h : Allocated x need limit bs brk bs' brk' b)
    (hbs : Placed x low bs brk) (hpos : 0 < need) (hneed : x.bytes ∣ need) :
    Placed x low bs' brk' := by
  cases h with
  | @reuse l r d _ hl hb =>
    obtain ⟨hl, hd, hr⟩ := placed_append_cons.1 hbs
    refine placed_append_cons.2 ⟨?_, placed_cut (b := d.take) ⟨hd.1, hd.2, hd.3⟩ hpos hneed hr⟩
    rw [cut_address]
    exact hl
  | extend hnone hfree hstop hlimit =>
    obtain ⟨hl, hd, -⟩ := placed_append_cons.1 hbs
    exact placed_append_cons.2 ⟨hl, ⟨hd.address_dvd, hneed, hpos⟩, Nat.le_refl _⟩
  | append hnone hlast haddress hlimit =>
    obtain ⟨hdvd, hle, -⟩ := Address.alignUp?_spec haddress
    exact placed_append_cons.2 ⟨hbs.mono (Nat.le_refl _) hle, ⟨hdvd, hneed, hpos⟩, Nat.le_refl _⟩

theorem brk_le (h : Allocated x need limit bs brk bs' brk' b) : brk ≤ brk' := by
  cases h with
  | reuse hl hb => exact Nat.le_refl _
  | @extend l d _ hnone hfree hstop hlimit =>
    -- A free block that was passed over is too small.
    have hsize : d.size < need := by
      by_contra hge
      exact hnone _ (by simp) ⟨hfree, Nat.not_lt.1 hge⟩
    rw [← hstop]
    exact Nat.add_le_add_left hsize.le _
  | append hnone hlast haddress hlimit =>
    have := (Address.alignUp?_spec haddress).2.1
    omega

/-- The new block is made of free blocks and space above the mark. -/
theorem bytes_subset (h : Allocated x need limit bs brk bs' brk' b) :
    b.bytes x ⊆ scratch x bs ∪ Set.Ico brk limit := by
  cases h with
  | @reuse l r d _ hl hb =>
    refine Set.subset_union_of_subset_left ?_ _
    refine Set.Subset.trans ?_ (bytes_subset_scratch (b := d) (by simp) hb.1)
    rw [Block.bytes, cut_address]
    exact Set.Ico_subset_Ico_right (stop_cut_le (b := d.take) hb.2)
  | @extend l d _ hnone hfree hstop hlimit =>
    rintro c ⟨hlow, hhigh⟩
    by_cases hc : c < d.stop x
    · exact .inl (bytes_subset_scratch (b := d) (by simp) hfree ⟨hlow, hc⟩)
    · exact .inr ⟨hstop.symm.trans_le (Nat.not_lt.1 hc), Nat.lt_of_lt_of_le hhigh hlimit⟩
  | append hnone hlast haddress hlimit =>
    rintro c ⟨hlow, hhigh⟩
    have := (Address.alignUp?_spec haddress).2.1
    exact .inr ⟨Nat.le_trans this hlow, Nat.lt_of_lt_of_le hhigh hlimit⟩

theorem headerBytes_subset (h : Allocated x need limit bs brk bs' brk' b) :
    b.headerBytes x ⊆ scratch x bs ∪ Set.Ico brk limit :=
  (b.headerBytes_subset_bytes x).trans h.bytes_subset

/-- No header appears outside what belonged to the allocator. -/
theorem headerRegion_subset (h : Allocated x need limit bs brk bs' brk' b) :
    headerRegion x bs' ⊆ scratch x bs ∪ Set.Ico brk limit := by
  have hnew := h.headerBytes_subset
  cases h with
  | @reuse l r d _ hl hb =>
    refine Set.subset_union_of_subset_left ?_ _
    have hd : d.take.bytes x ⊆ scratch x (l ++ d :: r) := bytes_subset_scratch (b := d) (by simp) hb.1
    have hheaders := headerRegion_subset_scratch (x := x) (l ++ d :: r)
    rw [headerRegion_append, headerRegion_cons] at hheaders
    rw [headerRegion_append]
    refine Set.union_subset (Set.subset_union_left.trans hheaders) ?_
    refine (headerRegion_cut_subset need d.take r).trans (Set.union_subset hd ?_)
    exact (Set.subset_union_right.trans Set.subset_union_right).trans hheaders
  | @extend l d _ hnone hfree hstop hlimit =>
    rw [headerRegion_append, headerRegion_singleton]
    refine Set.union_subset ?_ hnew
    refine Set.subset_union_of_subset_left ?_ _
    rw [scratch_append]
    exact Set.subset_union_of_subset_left (headerRegion_subset_scratch l) _
  | append hnone hlast haddress hlimit =>
    rw [headerRegion_append, headerRegion_singleton]
    refine Set.union_subset ?_ hnew
    exact Set.subset_union_of_subset_left (headerRegion_subset_scratch bs) _

/-- No block appears outside the old blocks and the space above the mark. -/
theorem region_subset (h : Allocated x need limit bs brk bs' brk' b) :
    region x bs' ⊆ region x bs ∪ Set.Ico brk limit := by
  have hnew := h.bytes_subset.trans
    (Set.union_subset_union_left (Set.Ico brk limit) (scratch_subset_region bs))
  cases h with
  | @reuse l r d _ hl hb =>
    refine Set.subset_union_of_subset_left ?_ _
    rw [region_append, region_append]
    have hcut := (region_cut (x := x) (r := r) (b := d.take) hb.2).subset
    rw [region_cons d.take] at hcut
    rw [region_cons d]
    exact Set.union_subset_union_right _ hcut
  | @extend l d _ hnone hfree hstop hlimit =>
    rw [region_append, region_singleton]
    refine Set.union_subset ?_ hnew
    rw [region_append]
    exact Set.subset_union_left.trans Set.subset_union_left
  | append hnone hlast haddress hlimit =>
    rw [region_append, region_singleton]
    exact Set.union_subset Set.subset_union_left hnew

/-- The pointer of the new block is none of those allocated before. -/
theorem payload_ne_of_mem_live {low : Nat} {c : Block}
    (h : Allocated x need limit bs brk bs' brk' b) (hplaced : Placed x low bs brk)
    (hpos : 0 < need) (hc : c ∈ live bs) : b.payload x ≠ c.payload x := by
  intro heq
  have hlt := Block.payload_lt_stop (hplaced.of_mem (mem_live.1 hc).1).2.1
  refine hplaced.not_mem_scratch_union hc ⟨Nat.le_refl _, hlt⟩ (h.bytes_subset ?_)
  rw [← heq]
  exact ⟨(b.address_lt_payload x).le, Nat.lt_add_of_pos_right (hpos.trans_le h.need_le)⟩

/-- When the last block is free and reaches up to the mark, it is the one to grow. -/
theorem payload_add_le {l : List Block} {d : Block}
    (h : Allocated x need limit (l ++ [d]) brk bs' brk' b) (hnone : ∀ c ∈ l ++ [d], ¬ c.Suits need)
    (hfree : d.free = true) (hstop : d.stop x = brk) : d.payload x + need ≤ limit := by
  generalize heq : l ++ [d] = bs at h
  cases h with
  | @reuse l' r e _ hl hb => exact absurd hb (hnone e (by rw [heq]; simp))
  | @extend l' e _ hnone' hfree' hstop' hlimit =>
    obtain ⟨-, hde⟩ := List.append_inj' heq rfl
    rw [List.cons.inj hde |>.1]
    exact hlimit
  | append hnone' hlast haddress hlimit => exact absurd ⟨hfree, hstop⟩ (hlast l d heq.symm)

/-- When no block will do, a new one is put at the mark. -/
theorem exists_address (h : Allocated x need limit bs brk bs' brk' b)
    (hnone : ∀ c ∈ bs, ¬ c.Suits need)
    (hlast : ∀ l b, bs = l ++ [b] → ¬ (b.free = true ∧ b.stop x = brk)) :
    ∃ address, Address.alignUp? brk x.bytes = some address ∧
      address + headerSize x + need ≤ limit := by
  cases h with
  | @reuse l r e _ hl hb => exact absurd hb (hnone e (by simp))
  | @extend l e _ hnone' hfree hstop hlimit => exact absurd ⟨hfree, hstop⟩ (hlast l e rfl)
  | append hnone' hlast' haddress hlimit => exact ⟨_, haddress, hlimit⟩

end Allocated

namespace Arena

variable {a a' : Arena x} {bs bs' : List Block} {l r : List Block} {b d : Block} {need : Nat}

/-- An arena whose blocks are in order: no two free blocks are adjacent, and the
live allocations are counted. -/
structure Consistent (a : Arena x) (bs : List Block) : Prop extends Represents a bs where
  apart : Apart x bs
  active_eq : a.heap.active = (live bs).length

/-- Changes outside the headers leave the blocks as they are. -/
theorem Represents.of_evolves (h : a.Represents bs) (he : Evolves R a a')
    (hR : ∀ c ∈ headerRegion x bs, c ∉ R) (hbrk : a'.heap.brk = a.heap.brk)
    (hhead : a'.heap.head = a.heap.head) (htail : a'.heap.tail = a.heap.tail) :
    a'.Represents bs where
  window := by
    rw [he.base_eq, he.limit_eq]
    exact h.window
  brk_le := by
    rw [hbrk, he.limit_eq]
    exact h.brk_le
  placed := by
    rw [he.base_eq, hbrk]
    exact h.placed
  head_eq := hhead.trans h.head_eq
  tail_eq := htail.trans h.tail_eq
  linked := he.linked h.linked (fun _ hc => h.toLaid.lt_space (headerRegion_subset_region bs hc)) hR

/-- So do changes of the record that keep both ends of the list and do not lower
the mark. -/
theorem Represents.of_heap (h : a.Represents bs) {k : Heap x} (hbase : k.base = a.heap.base)
    (hlimit : k.limit = a.heap.limit) (hle : a.heap.brk ≤ k.brk) (hbrk : k.brk ≤ k.limit)
    (hhead : k.head = a.heap.head) (htail : k.tail = a.heap.tail) :
    Represents { a with heap := k } bs where
  window := by
    show Window x k.base k.limit
    rw [hbase, hlimit]
    exact h.window
  brk_le := hbrk
  placed := h.placed.mono hbase.le hle
  head_eq := hhead.trans h.head_eq
  tail_eq := htail.trans h.tail_eq
  linked := h.linked

/-- If they keep the count as well, the blocks stay in order. -/
theorem Consistent.withHeap (h : a.Consistent bs) {k : Heap x} (hbase : k.base = a.heap.base)
    (hlimit : k.limit = a.heap.limit) (hle : a.heap.brk ≤ k.brk) (hbrk : k.brk ≤ k.limit)
    (hends : k.head = a.heap.head ∧ k.tail = a.heap.tail) (hactive : k.active = a.heap.active) :
    Consistent { a with heap := k } bs :=
  ⟨h.of_heap hbase hlimit hle hbrk hends.1 hends.2, h.apart, hactive.trans h.active_eq⟩

/-! ### Handing out -/

/-- Handing out a block fills at most its payload and counts the block. -/
theorem Represents.yields_handOut (h : a.Represents bs) (hb : b ∈ live bs) {zeroed : Bool}
    (hactive : a.heap.active + 1 < wordLimit) (next prev : Nat) :
    Yields (handOut (b.header next prev) zeroed) a fun q a' =>
      q = b.payload x ∧ a'.Represents bs ∧ Evolves (b.payloadBytes x) a a' ∧
        a'.heap.brk = a.heap.brk ∧ a'.heap.active = a.heap.active + 1 ∧
        (zeroed = true → ∀ c ∈ b.payloadBytes x, a'.memory.loadByte c = 0) := by
  have hmem := (mem_live.1 hb).1
  have hspace := h.toLaid.stop_le_space hmem
  have hpayload : checkedSum b.address (headerSize x) = .ok (b.payload x) :=
    checkedSum_of_lt (Nat.lt_of_le_of_lt (Nat.le_add_right _ _) (h.toLaid.stop_lt_wordLimit hmem))
  have hheaders : ∀ c ∈ headerRegion x bs, c ∉ b.payloadBytes x := fun c hc hpc =>
    h.placed.not_mem_scratch hb hpc (headerRegion_subset_scratch bs hc)
  unfold handOut
  rw [Block.header_address, Block.header_size, yields_bind, yields_ofExcept hpayload]
  cases zeroed with
  | false =>
    rw [if_neg Bool.false_ne_true, yields_bind, yields_heap, yields_bind,
      yields_ofExcept (checkedSum_of_lt hactive), yields_bind, yields_modifyHeap, yields_pure]
    have hevolves : Evolves (b.payloadBytes x) a
        { a with heap := { a.heap with active := a.heap.active + 1 } } :=
      evolves_heap _ a rfl rfl rfl
    exact ⟨rfl, h.of_evolves hevolves hheaders rfl rfl rfl, hevolves, rfl, rfl, Bool.noConfusion⟩
  | true =>
    rw [if_pos rfl, yields_bind, yields_modifyMemory, yields_bind, yields_heap, yields_bind,
      yields_ofExcept (checkedSum_of_lt hactive), yields_bind, yields_modifyHeap, yields_pure]
    have hevolves : Evolves (b.payloadBytes x) a
        { memory := a.memory.zero (b.payload x) b.size
          heap := { a.heap with active := a.heap.active + 1 } } :=
      ⟨rfl, rfl, rfl, Memory.aligned_zero _ _ _, fun _ hc hout =>
        Memory.loadByte_zero_of_outside _ hspace hc hout⟩
    refine ⟨rfl, h.of_evolves hevolves hheaders rfl rfl rfl, hevolves, rfl, rfl, fun _ c hc => ?_⟩
    exact Memory.loadByte_zero_of_inside _ hspace hc.1 hc.2

/-! ### Fresh space -/

/-- The last block learns that `address` comes next, or the heap that it is the
first. -/
theorem Represents.yields_linkFront (h : a.Represents bs) (address : Nat)
    (haddress : address < x.space) :
    Yields (linkFront (back null bs) address) a fun _ a' =>
      Linked a'.memory null bs address ∧ a'.heap.head = front bs address ∧
        Edited (headerRegion x bs) a a' := by
  unfold linkFront
  rcases List.eq_nil_or_concat bs with rfl | ⟨l, p, rfl⟩
  · rw [if_pos (back_nil null), yields_modifyHeap]
    exact ⟨trivial, rfl, evolves_heap _ a rfl rfl rfl, rfl, rfl⟩
  · rw [List.concat_eq_append] at *
    have hmem : p ∈ l ++ [p] := by simp
    have hplace := h.toLaid.headerPlace hmem
    have hback : back null (l ++ [p]) = p.address := back_append null l [p]
    have hedited : Edited (p.headerBytes x) a
        { a with memory := a.memory.setCell (p.address + 2 * x.bytes) address } :=
      edited_setCell a (by decide) hplace subset_rfl
    have haround := h.around.of_edited (hedited.mono (p.headerBytes_subset_bytes x)) rfl rfl
    have hholds := (linked_append_cons.1 h.linked).2.1
    rw [hback, if_neg (h.toLaid.address_ne hmem), AllocM.yields_setNext hplace]
    refine ⟨linked_append_cons.2 ⟨haround.before, ?_, trivial⟩, ?_, ?_⟩
    · exact Memory.Holds.setNext hholds hplace haddress
    · rw [front_append]
      exact haround.head_eq
    · exact hedited.mono (headerBytes_subset_headerRegion hmem)

/-- The arena after a request for `need` bytes has made the block `b`, which is
yet to be counted. -/
structure Made (need : Nat) (a : Arena x) (bs : List Block) (a' : Arena x) (bs' : List Block)
    (b : Block) : Prop where
  allocated : Allocated x need a.heap.limit bs a.heap.brk bs' a'.heap.brk b
  represents : a'.Represents bs'
  active_eq : a'.heap.active = a.heap.active
  evolves : Evolves (scratch x bs ∪ Set.Ico a.heap.brk a.heap.limit) a a'

/-- What a search for fresh space leads to: a block was made, or there is no way to
make one and nothing changed. -/
def Extended (need : Nat) (a : Arena x) (bs : List Block) (v : Option Header) (a' : Arena x) :
    Prop :=
  (∃ bs' b next prev, v = some (b.header next prev) ∧ Made need a bs a' bs' b) ∨
    v = none ∧ a' = a ∧
      ∀ bs' brk' b, ¬ Allocated x need a.heap.limit bs a.heap.brk bs' brk' b

/-- When the mark moves up to a new end of the last block, the header of that block
is the only thing to write. -/
theorem Represents.around_last (h : a.Represents (l ++ [d])) (hpos : 0 < need)
    (hneed : x.bytes ∣ need) (hlimit : d.payload x + need ≤ a.heap.limit)
    (haddress : b.address = d.address) (hsize : b.size = need) :
    Around { a with heap := { a.heap with brk := d.payload x + need } } l b [] := by
  have hplaced := placed_append_cons.1 h.placed
  have hstop : b.stop x = d.payload x + need := by
    unfold Block.stop Block.payload
    rw [haddress, hsize]
  have hlaid : Laid { a with heap := { a.heap with brk := d.payload x + need } } (l ++ [b]) := by
    refine ⟨h.window, hlimit, placed_append_cons.2 ⟨haddress ▸ hplaced.1, ?_, hstop.le⟩⟩
    exact ⟨haddress ▸ hplaced.2.1.address_dvd, hsize ▸ hneed, hsize ▸ hpos⟩
  refine ⟨hlaid, ?_, ?_, ?_, trivial⟩
  · rw [haddress]
    exact h.around.head_eq
  · rw [back_nil, haddress]
    exact h.around.tail_eq
  · rw [haddress]
    exact h.around.before

/-- The last block takes the space up to a mark that is moved for it. -/
theorem Represents.yields_raiseLast (h : a.Represents (l ++ [d])) (hpos : 0 < need)
    (hneed : x.bytes ∣ need) (hlimit : d.payload x + need ≤ a.heap.limit)
    (haddress : b.address = d.address) (hsize : b.size = need) :
    Yields (modifyHeap (fun h => { h with brk := d.payload x + need }) >>= fun _ =>
        storeHeader (b.header null (back null l))) a fun _ a' =>
      a'.Represents (l ++ [b]) ∧ a'.heap.brk = d.payload x + need ∧
        a'.heap.active = a.heap.active ∧ Evolves (scratch x (l ++ [d])) a a' := by
  have hmem : d ∈ l ++ [d] := by simp
  have hheader : b.headerBytes x ⊆ scratch x (l ++ [d]) := by
    have hbytes : b.headerBytes x = d.headerBytes x := by
      rw [Block.headerBytes, Block.headerBytes, Block.payload, Block.payload, haddress]
    rw [hbytes]
    exact (headerBytes_subset_headerRegion hmem).trans (headerRegion_subset_scratch _)
  have haround := h.around_last hpos hneed hlimit haddress hsize
  rw [yields_bind, yields_modifyHeap]
  refine (haround.yields_storeHeader hheader).imp ?_
  rintro - a' ⟨hrep, hedited⟩
  refine ⟨hrep, hedited.brk_eq, hedited.active_eq, ?_⟩
  refine Evolves.trans ?_ hedited.toEvolves
  exact evolves_heap _ a rfl rfl rfl

theorem Represents.yields_growTail? (h : a.Represents (l ++ [d])) (hpos : 0 < need)
    (hneed : x.bytes ∣ need) (hnone : ∀ c ∈ l ++ [d], ¬ c.Suits need) (hfree : d.free = true)
    (hstop : d.stop x = a.heap.brk) :
    Yields (growTail? (d.header null (back null l)) need) a (Extended need a (l ++ [d])) := by
  unfold growTail?
  rw [yields_bind, yields_heap, Block.payload_header]
  by_cases hlimit : d.payload x + need ≤ a.heap.limit
  · have hallocated := Allocated.extend hnone hfree hstop hlimit
    simp only [hlimit, if_true]
    rw [← bind_assoc]
    refine (h.yields_raiseLast (b := d.take.resize need) hpos hneed hlimit rfl rfl).bind ?_
    rintro - a' ⟨hrep, hbrk, hactive, hevolves⟩
    rw [yields_pure]
    refine .inl ⟨_, d.take.resize need, null, back null l, rfl, ?_, hrep, hactive, ?_⟩
    · rw [hbrk]
      exact hallocated
    · exact hevolves.mono Set.subset_union_left
  · simp only [hlimit, if_false]
    rw [yields_pure]
    refine .inr ⟨rfl, rfl, fun bs' brk' b hallocated => ?_⟩
    exact hlimit (hallocated.payload_add_le hnone hfree hstop)

/-- A header above the mark is linked behind the last block. -/
theorem Represents.yields_linkLast (h : a.Represents bs) {address : Nat}
    (hplace : HeaderPlace x address) (hneed : need < x.space) (hbrk : a.heap.brk ≤ address) :
    Yields (storeHeader (Block.header ⟨address, need, false⟩ null (back null bs)) >>= fun _ =>
        linkFront (back null bs) address) a fun _ a' =>
      Linked a'.memory null (bs ++ [⟨address, need, false⟩]) null ∧
        a'.heap.head = front bs address ∧
          Edited (Block.headerBytes x ⟨address, need, false⟩ ∪ headerRegion x bs) a a' := by
  have haddress : address < x.space :=
    Nat.lt_of_lt_of_le (Nat.lt_add_of_pos_right (headerSize_pos x)) hplace.stop_le
  have hback : back null bs < x.space := h.toLaid.back_lt fun _ hc => hc
  have hholds := Memory.holds_setHeader a.memory
    (b := Block.header ⟨address, need, false⟩ null (back null bs)) hplace hneed x.space_pos hback
  -- The new header lies above the mark and so above all others.
  have hregion (c : Nat) (hc : c ∈ headerRegion x bs) : c < address :=
    Nat.lt_of_lt_of_le (h.placed.lt_of_mem_region (headerRegion_subset_region bs hc)) hbrk
  have hedited : Edited (Block.headerBytes x ⟨address, need, false⟩) a { a with
      memory := a.memory.setHeader (Block.header ⟨address, need, false⟩ null (back null bs)) } :=
    edited_setHeader a hplace subset_rfl
  have hrep := h.of_evolves hedited.toEvolves
    (fun c hc hcb => absurd hcb.1 (Nat.not_le.2 (hregion c hc))) rfl rfl rfl
  rw [yields_bind, AllocM.yields_storeHeader hplace]
  refine (hrep.yields_linkFront address haddress).imp ?_
  rintro - a₂ ⟨hlinked, hhead, hedited₂⟩
  refine ⟨?_, hhead, (hedited.mono Set.subset_union_left).trans
    (hedited₂.mono Set.subset_union_right)⟩
  refine linked_append_cons.2 ⟨hlinked, hholds.congr fun c hlow hhigh => ?_, trivial⟩
  refine hedited₂.loadByte_eq c (Nat.lt_of_lt_of_le hhigh hplace.stop_le) fun hc => ?_
  exact absurd hlow (Nat.not_le.2 (hregion c hc))

/-- The block whose header was linked behind the last block is made once the mark is
moved behind it. -/
theorem Represents.made_append (h : a.Represents bs) (hpos : 0 < need) (hneed : x.bytes ∣ need)
    {address brk' : Nat} (hallocated : Allocated x need a.heap.limit bs a.heap.brk
      (bs ++ [⟨address, need, false⟩]) brk' ⟨address, need, false⟩) (hbrk : brk' ≤ a.heap.limit)
    (hlinked : Linked a'.memory null (bs ++ [⟨address, need, false⟩]) null)
    (hhead : a'.heap.head = front bs address)
    (hedited : Edited (Block.headerBytes x ⟨address, need, false⟩ ∪ headerRegion x bs) a a') :
    Made need a bs { a' with heap := { a'.heap with tail := address, brk := brk' } }
      (bs ++ [⟨address, need, false⟩]) ⟨address, need, false⟩ where
  allocated := hallocated
  represents := by
    refine ⟨⟨?_, ?_, ?_⟩, ?_, ?_, hlinked⟩
    · rw [hedited.base_eq, hedited.limit_eq]
      exact h.window
    · rw [hedited.limit_eq]
      exact hbrk
    · rw [hedited.base_eq]
      exact hallocated.placed h.placed hpos hneed
    · rw [front_append]
      exact hhead
    · rw [back_append]
      rfl
  active_eq := hedited.active_eq
  evolves := by
    refine Evolves.trans (hedited.toEvolves.mono ?_) (evolves_heap _ a' rfl rfl rfl)
    refine Set.union_subset hallocated.headerBytes_subset ?_
    exact (headerRegion_subset_scratch bs).trans Set.subset_union_left

theorem Represents.yields_append? (h : a.Represents bs) (hpos : 0 < need) (hneed : x.bytes ∣ need)
    (hnone : ∀ c ∈ bs, ¬ c.Suits need)
    (hlast : ∀ l b, bs = l ++ [b] → ¬ (b.free = true ∧ b.stop x = a.heap.brk)) :
    Yields (append? need) a (Extended need a bs) := by
  unfold append?
  rw [yields_bind, yields_heap]
  cases halign : Address.alignUp? a.heap.brk x.bytes with
  | none =>
    dsimp only
    rw [yields_pure]
    refine .inr ⟨rfl, rfl, fun bs' brk' b hallocated => ?_⟩
    obtain ⟨address, haddress, -⟩ := hallocated.exists_address hnone hlast
    rw [halign] at haddress
    cases haddress
  | some address =>
    dsimp only
    by_cases hlimit : address + headerSize x + need ≤ a.heap.limit
    · -- The new header and its payload lie between the old mark and the limit.
      have halloc := Allocated.append hnone hlast halign hlimit
      obtain ⟨hdvd, hbrk, -⟩ := Address.alignUp?_spec halign
      have hspace := hlimit.trans h.window.limit_le_space
      have hplace : HeaderPlace x address := ⟨hdvd, by omega⟩
      have hpos' := headerSize_pos x
      have hstop : Header.stop x ⟨address, need, false, null, a.heap.tail⟩ ≤ a.heap.limit := hlimit
      have hheader : (⟨address, need, false, null, a.heap.tail⟩ : Header) =
          Block.header ⟨address, need, false⟩ null (back null bs) := by
        rw [h.tail_eq]
        rfl
      rw [if_pos hstop, hheader, h.tail_eq, linkFront_bind, ← bind_assoc]
      refine (h.yields_linkLast hplace (by omega) hbrk).bind ?_
      rintro - a₂ ⟨hlinked, hhead, hedited⟩
      rw [yields_bind, yields_modifyHeap, yields_pure]
      have hmade := h.made_append hpos hneed halloc hlimit hlinked hhead hedited
      exact .inl ⟨_, ⟨address, need, false⟩, null, back null bs, rfl, hmade⟩
    · have hstop : ¬ Header.stop x ⟨address, need, false, null, a.heap.tail⟩ ≤ a.heap.limit := hlimit
      rw [if_neg hstop, yields_pure]
      refine .inr ⟨rfl, rfl, fun bs' brk' b hallocated => ?_⟩
      obtain ⟨address', haddress, hfits⟩ := hallocated.exists_address hnone hlast
      rw [halign] at haddress
      cases haddress
      exact hlimit hfits

theorem Represents.yields_extend? (h : a.Represents bs) (hpos : 0 < need) (hneed : x.bytes ∣ need)
    (hnone : ∀ c ∈ bs, ¬ c.Suits need) : Yields (extend? need) a (Extended need a bs) := by
  unfold extend?
  rw [yields_bind, yields_heap]
  rcases List.eq_nil_or_concat bs with rfl | ⟨l, p, rfl⟩
  · rw [if_pos (h.tail_eq.trans (back_nil null))]
    exact h.yields_append? hpos hneed hnone fun l b heq => absurd heq (by simp)
  · rw [List.concat_eq_append] at *
    have hmem : p ∈ l ++ [p] := by simp
    rw [h.tail_eq_last, if_neg (h.toLaid.address_ne hmem), yields_bind, AllocM.header,
      yields_inspect h.header_eq, yields_bind, yields_ofExcept (h.toLaid.checkedStop_eq hmem _ _),
      Block.header_free]
    by_cases hgrow : p.free = true ∧ p.stop x = a.heap.brk
    · rw [if_pos hgrow]
      exact h.yields_growTail? hpos hneed hnone hgrow.1 hgrow.2
    · rw [if_neg hgrow]
      refine h.yields_append? hpos hneed hnone fun l' b heq => ?_
      have hpb := (List.append_inj' heq rfl).2
      rw [← (List.cons.inj hpb).1]
      exact hgrow

/-! ### Allocation -/

/-- What an allocation of `size` bytes leads to: a block of its own, or null and
nothing changed when there is no way to make one. -/
inductive Answered (size : Nat) (zeroed : Bool) (a : Arena x) (bs : List Block) :
    Nat → Arena x → Prop
  | granted {need : Nat} {a' : Arena x} {bs' : List Block} {b : Block} (hsize : size ≠ 0)
      (hround : a.heap.roundSize? size = some need)
      (hallocated : Allocated x need a.heap.limit bs a.heap.brk bs' a'.heap.brk b)
      (hconsistent : a'.Consistent bs')
      (hevolves : Evolves (scratch x bs ∪ Set.Ico a.heap.brk a.heap.limit) a a')
      (hzero : zeroed = true → ∀ c ∈ b.payloadBytes x, a'.memory.loadByte c = 0) :
      Answered size zeroed a bs (b.payload x) a'
  | refused (hnone : ∀ need, size ≠ 0 → a.heap.roundSize? size = some need →
      ∀ bs' brk' b, ¬ Allocated x need a.heap.limit bs a.heap.brk bs' brk' b) :
      Answered size zeroed a bs null a

/-- The block that was made is handed out. -/
theorem Made.yields_handOut {size : Nat} {zeroed : Bool} (hmade : Made need a bs a' bs' b)
    (h : a.Consistent bs) (hsize : size ≠ 0) (hround : a.heap.roundSize? size = some need)
    (next prev : Nat) :
    Yields (handOut (b.header next prev) zeroed) a' (Answered size zeroed a bs) := by
  have hlive : b ∈ live bs' := mem_live.2 ⟨hmade.allocated.mem, hmade.allocated.free_eq⟩
  have hcount : a'.heap.active + 1 < wordLimit := by
    have hle := List.length_filter_le (fun b => !b.free) bs
    have hlt := h.toLaid.length_lt_wordLimit
    rw [hmade.active_eq, h.active_eq]
    unfold live
    omega
  refine (hmade.represents.yields_handOut hlive hcount next prev).imp ?_
  rintro q a'' ⟨rfl, hrep, hevolves, hbrk, hactive, hzero⟩
  have hallocated := hmade.allocated
  rw [← hbrk] at hallocated
  refine .granted hsize hround hallocated ⟨hrep, hallocated.apart h.apart, ?_⟩ ?_ hzero
  · rw [hactive, hmade.active_eq, h.active_eq, hallocated.live_perm.length_eq, List.length_cons]
  · refine hmade.evolves.trans (hevolves.mono ?_)
    exact (b.payloadBytes_subset_bytes x).trans hallocated.bytes_subset

theorem Consistent.yields_allocate (h : a.Consistent bs) (size : Nat) (zeroed : Bool) :
    Yields (allocate size zeroed) a (Answered size zeroed a bs) := by
  unfold allocate
  by_cases hsize : size = 0
  · rw [if_pos hsize, yields_pure]
    exact .refused fun _ hne => absurd hsize hne
  rw [if_neg hsize, yields_bind, yields_heap]
  cases hround : a.heap.roundSize? size with
  | none =>
    dsimp only
    rw [yields_pure]
    refine .refused fun need _ hsome => ?_
    rw [hround] at hsome
    cases hsome
  | some need =>
    obtain ⟨hpos, hneed, -, -⟩ := Heap.roundSize?_spec hsize hround
    dsimp only
    rcases exists_first_suits need bs with ⟨l, b, r, rfl, hl, hb⟩ | hnone
    · have halloc : Allocated x need a.heap.limit (l ++ b :: r) a.heap.brk
          (l ++ (cut x b.take need r).1 :: (cut x b.take need r).2) a.heap.brk
          (cut x b.take need r).1 := .reuse hl hb
      rw [yields_bind, yields_inspect (h.toRepresents.firstFit_some hl hb)]
      dsimp only
      have haround := h.around.replace (d := b.take) rfl (placed_replace h.placed rfl rfl)
      have hbytes : b.bytes x ⊆ scratch x (l ++ b :: r) := bytes_subset_scratch (by simp) hb.1
      refine (haround.yields_split (R := scratch x (l ++ b :: r)) hpos hneed hb.2 ?_ ?_ ?_).bind ?_
      · exact (b.headerBytes_subset_bytes x).trans hbytes
      · exact (Set.Ico_subset_Ico_left
          ((b.address_lt_payload x).le.trans (Nat.le_add_right _ _))).trans hbytes
      · refine Set.Subset.trans ?_ (headerRegion_subset_scratch _)
        rw [headerRegion_append, headerRegion_cons]
        exact Set.subset_union_right.trans Set.subset_union_right
      rintro v a' ⟨rfl, hrep, hedited⟩
      have hmade : Made need a (l ++ b :: r) a'
          (l ++ (cut x b.take need r).1 :: (cut x b.take need r).2) (cut x b.take need r).1 :=
        ⟨hedited.brk_eq.symm ▸ halloc, hrep, hedited.active_eq,
          hedited.toEvolves.mono Set.subset_union_left⟩
      exact hmade.yields_handOut h hsize hround _ _
    · rw [yields_bind, yields_inspect (h.toRepresents.firstFit_none hnone)]
      dsimp only
      refine (h.toRepresents.yields_extend? hpos hneed hnone).bind ?_
      rintro v a' (⟨bs', b, next, prev, rfl, hmade⟩ | ⟨rfl, rfl, hno⟩)
      · exact hmade.yields_handOut h hsize hround _ _
      · dsimp only
        rw [yields_pure]
        refine .refused fun need' _ hround' => ?_
        rw [hround] at hround'
        cases hround'
        exact hno

theorem Consistent.yields_malloc (h : a.Consistent bs) (size : Nat) :
    Yields (malloc size) a (Answered size a.heap.alwaysCalloc a bs) := by
  unfold malloc
  rw [yields_bind, yields_heap]
  exact h.yields_allocate size _

end Arena

end Hart
