/-
Lists of blocks.

A heap is seen as the list of its blocks in the order of their addresses, each
with its size and whether it is free.  Links are not part of a block: they follow
from its place in the list (`front`, `back`).

* `Placed` — the blocks lie one after the other in a range, on whole cells;
* `Apart` — no two free blocks are adjacent;
* `region`, `headerRegion`, `scratch` — the bytes of the blocks, of their headers,
  and those that the allocator may write;
* `Placed.not_mem_scratch` — the payload of an allocated block is not among the
  last.

Design notes: placement is a recursion along the list that carries the lowest
address still available, so that an edit at one block only concerns the ranges
on its two sides (`placed_append_cons`).
-/
import Mathlib.Order.Interval.Set.Basic
import Mathlib.Data.List.Chain
import Hart.Heap.Header
import Hart.Proofs.Memory.Cells

namespace Hart

theorem headerSize_pos (x : Xlen) : 0 < headerSize x := by
  cases x <;> decide

theorem bytes_dvd_headerSize (x : Xlen) : x.bytes ∣ headerSize x :=
  Nat.dvd_mul_left _ _

theorem bytes_le_headerSize (x : Xlen) : x.bytes ≤ headerSize x :=
  Nat.le_of_dvd (headerSize_pos x) (bytes_dvd_headerSize x)

/-- A block of the heap. -/
structure Block where
  /-- The address of the header. -/
  address : Nat
  /-- The number of payload bytes. -/
  size : Nat
  /-- The block is not allocated. -/
  free : Bool
  deriving DecidableEq, Repr

namespace Block

/-- The address of the first payload byte. -/
def payload (x : Xlen) (b : Block) : Nat := b.address + headerSize x

/-- One past the last payload byte. -/
def stop (x : Xlen) (b : Block) : Nat := b.payload x + b.size

/-- The block with another size. -/
def resize (b : Block) (size : Nat) : Block := { b with size := size }

/-- The header of the block between its neighbours. -/
def header (b : Block) (next prev : Nat) : Header :=
  { address := b.address, size := b.size, free := b.free, next, prev }

@[simp] theorem header_address (b : Block) (next prev : Nat) :
    (b.header next prev).address = b.address := rfl

@[simp] theorem header_size (b : Block) (next prev : Nat) :
    (b.header next prev).size = b.size := rfl

@[simp] theorem header_free (b : Block) (next prev : Nat) :
    (b.header next prev).free = b.free := rfl

@[simp] theorem header_next (b : Block) (next prev : Nat) :
    (b.header next prev).next = next := rfl

@[simp] theorem header_prev (b : Block) (next prev : Nat) :
    (b.header next prev).prev = prev := rfl

@[simp] theorem payload_header (x : Xlen) (b : Block) (next prev : Nat) :
    (b.header next prev).payload x = b.payload x := rfl

/-- The addresses of the header. -/
def headerBytes (x : Xlen) (b : Block) : Set Nat := Set.Ico b.address (b.payload x)

/-- The addresses of the payload. -/
def payloadBytes (x : Xlen) (b : Block) : Set Nat := Set.Ico (b.payload x) (b.stop x)

/-- The addresses of header and payload. -/
def bytes (x : Xlen) (b : Block) : Set Nat := Set.Ico b.address (b.stop x)

/-- The block lies on whole cells and its payload is not empty. -/
structure Whole (x : Xlen) (b : Block) : Prop where
  address_dvd : x.bytes ∣ b.address
  size_dvd : x.bytes ∣ b.size
  size_pos : 0 < b.size

theorem payload_lt_stop {x : Xlen} {b : Block} (h : b.Whole x) : b.payload x < b.stop x := by
  have := h.size_pos
  unfold stop
  omega

theorem address_lt_payload (x : Xlen) (b : Block) : b.address < b.payload x := by
  have := headerSize_pos x
  unfold payload
  omega

theorem payload_ne_null (x : Xlen) (b : Block) : b.payload x ≠ null :=
  Nat.ne_zero_of_lt (b.address_lt_payload x)

theorem address_lt_stop (x : Xlen) (b : Block) : b.address < b.stop x := by
  have := b.address_lt_payload x
  unfold stop
  omega

theorem headerBytes_subset_bytes (x : Xlen) (b : Block) : b.headerBytes x ⊆ b.bytes x :=
  Set.Ico_subset_Ico_right (Nat.le_add_right _ _)

theorem payloadBytes_subset_bytes (x : Xlen) (b : Block) : b.payloadBytes x ⊆ b.bytes x :=
  Set.Ico_subset_Ico_left (Nat.le_add_right _ _)

end Block

variable {x : Xlen}

/-! ### The ends of a list -/

/-- The address of the first block of a list, or what comes next. -/
def front : List Block → Nat → Nat
  | [], next => next
  | b :: _, _ => b.address

/-- The address of the last block of a list, or what came before. -/
def back : Nat → List Block → Nat
  | prev, [] => prev
  | _, b :: r => back b.address r

@[simp] theorem front_nil (next : Nat) : front [] next = next := rfl

@[simp] theorem front_cons (b : Block) (r : List Block) (next : Nat) :
    front (b :: r) next = b.address := rfl

@[simp] theorem back_nil (prev : Nat) : back prev [] = prev := rfl

@[simp] theorem back_cons (prev : Nat) (b : Block) (r : List Block) :
    back prev (b :: r) = back b.address r := rfl

@[simp] theorem front_append (l r : List Block) (next : Nat) :
    front (l ++ r) next = front l (front r next) := by
  cases l <;> rfl

@[simp] theorem back_append (prev : Nat) (l r : List Block) :
    back prev (l ++ r) = back (back prev l) r := by
  induction l generalizing prev with
  | nil => rfl
  | cons b l ih => exact ih b.address

theorem front_eq_or_mem (bs : List Block) (next : Nat) :
    front bs next = next ∨ ∃ b ∈ bs, front bs next = b.address := by
  cases bs with
  | nil => exact .inl rfl
  | cons b r => exact .inr ⟨b, List.mem_cons_self, rfl⟩

theorem back_eq_or_mem (prev : Nat) (bs : List Block) :
    back prev bs = prev ∨ ∃ b ∈ bs, back prev bs = b.address := by
  induction bs generalizing prev with
  | nil => exact .inl rfl
  | cons b r ih =>
    right
    rcases ih b.address with h | ⟨c, hc, h⟩
    · exact ⟨b, List.mem_cons_self, h⟩
    · exact ⟨c, List.mem_cons_of_mem b hc, h⟩

/-! ### Placement -/

/-- The blocks lie in `[low, high)`, one after the other and on whole cells. -/
def Placed (x : Xlen) : Nat → List Block → Nat → Prop
  | low, [], high => low ≤ high
  | low, b :: r, high => low ≤ b.address ∧ b.Whole x ∧ Placed x (b.stop x) r high

theorem Placed.le {low high : Nat} {bs : List Block} (h : Placed x low bs high) : low ≤ high := by
  induction bs generalizing low with
  | nil => exact h
  | cons b r ih =>
    obtain ⟨hlow, -, hr⟩ := h
    have hstop := ih hr
    have hlt := b.address_lt_stop x
    omega

theorem placed_append_cons {low high : Nat} {l r : List Block} {b : Block} :
    Placed x low (l ++ b :: r) high ↔
      Placed x low l b.address ∧ b.Whole x ∧ Placed x (b.stop x) r high := by
  induction l generalizing low with
  | nil => rfl
  | cons c l ih =>
    rw [List.cons_append, Placed, ih, Placed]
    exact ⟨fun ⟨h₁, h₂, h₃, h₄⟩ => ⟨⟨h₁, h₂, h₃⟩, h₄⟩, fun ⟨⟨h₁, h₂, h₃⟩, h₄⟩ => ⟨h₁, h₂, h₃, h₄⟩⟩

theorem placed_replace {low high : Nat} {l r : List Block} {b b' : Block}
    (h : Placed x low (l ++ b :: r) high) (haddress : b'.address = b.address)
    (hsize : b'.size = b.size) : Placed x low (l ++ b' :: r) high := by
  have hstop : b'.stop x = b.stop x := by
    unfold Block.stop Block.payload
    rw [haddress, hsize]
  obtain ⟨hl, hb, hr⟩ := placed_append_cons.1 h
  refine placed_append_cons.2 ⟨haddress ▸ hl, ⟨haddress ▸ hb.address_dvd, hsize ▸ hb.size_dvd,
    hsize ▸ hb.size_pos⟩, hstop ▸ hr⟩

/-- Where a block of a list lies. -/
theorem Placed.of_mem {low high : Nat} {bs : List Block} (h : Placed x low bs high) {b : Block}
    (hb : b ∈ bs) : low ≤ b.address ∧ b.Whole x ∧ b.stop x ≤ high := by
  obtain ⟨l, r, rfl⟩ := List.append_of_mem hb
  obtain ⟨hl, hwhole, hr⟩ := placed_append_cons.1 h
  exact ⟨hl.le, hwhole, hr.le⟩

theorem Placed.mono {low low' high high' : Nat} {bs : List Block} (h : Placed x low bs high)
    (hlow : low' ≤ low) (hhigh : high ≤ high') : Placed x low' bs high' := by
  induction bs generalizing low low' with
  | nil => exact hlow.trans (Nat.le_trans h hhigh)
  | cons b r ih => exact ⟨hlow.trans h.1, h.2.1, ih h.2.2 (Nat.le_refl _)⟩

/-- Two blocks of a list are the same or do not overlap. -/
theorem Placed.disjoint {low high : Nat} {bs : List Block} (h : Placed x low bs high) {b c : Block}
    (hb : b ∈ bs) (hc : c ∈ bs) (hne : b ≠ c) : b.stop x ≤ c.address ∨ c.stop x ≤ b.address := by
  obtain ⟨l, r, rfl⟩ := List.append_of_mem hb
  obtain ⟨hl, -, hr⟩ := placed_append_cons.1 h
  rcases List.mem_append.1 hc with hc | hc
  · exact .inr (hl.of_mem hc).2.2
  · rcases List.mem_cons.1 hc with rfl | hc
    · exact absurd rfl hne
    · exact .inl (hr.of_mem hc).1

/-- As many headers as there are blocks fit in the range. -/
theorem Placed.length_mul_le {low high : Nat} {bs : List Block} (h : Placed x low bs high) :
    low + bs.length * headerSize x ≤ high := by
  induction bs generalizing low with
  | nil => simpa using h.le
  | cons b r ih =>
    obtain ⟨hlow, -, hr⟩ := h
    have := ih hr
    unfold Block.stop Block.payload at this
    rw [List.length_cons, Nat.succ_mul]
    omega

theorem Placed.sorted {low high : Nat} {bs : List Block} (h : Placed x low bs high) :
    bs.Pairwise fun b c => b.stop x ≤ c.address := by
  induction bs generalizing low with
  | nil => exact List.Pairwise.nil
  | cons b r ih =>
    obtain ⟨-, -, hr⟩ := h
    exact List.Pairwise.cons (fun c hc => (hr.of_mem hc).1) (ih hr)

/-- A block is in one place of a list only. -/
theorem Placed.eq_of_append_cons_eq {low high : Nat} {l l' r r' : List Block} {b : Block}
    (h : Placed x low (l ++ b :: r) high) (heq : l ++ b :: r = l' ++ b :: r') :
    l = l' ∧ r = r' := by
  obtain ⟨hl, -, hr⟩ := placed_append_cons.1 h
  have hlt := b.address_lt_stop x
  have hnotl : b ∉ l := fun hb => absurd (hl.of_mem hb).2.2 (Nat.not_le.2 hlt)
  have hnotr : b ∉ r := fun hb => absurd (hr.of_mem hb).1 (Nat.not_le.2 hlt)
  obtain ⟨hll, -, hrr⟩ := (List.append_cons_inj_of_notMem hnotl hnotr).1 heq
  exact ⟨hll, hrr⟩

/-! ### Regions -/

/-- The addresses of the headers of a list. -/
def headerRegion (x : Xlen) (bs : List Block) : Set Nat := {c | ∃ b ∈ bs, c ∈ b.headerBytes x}

/-- The addresses of the blocks of a list. -/
def region (x : Xlen) (bs : List Block) : Set Nat := {c | ∃ b ∈ bs, c ∈ b.bytes x}

/-- The addresses that belong to the allocator: headers and free blocks. -/
def scratch (x : Xlen) (bs : List Block) : Set Nat :=
  {c | ∃ b ∈ bs, c ∈ b.headerBytes x ∨ b.free = true ∧ c ∈ b.bytes x}

theorem headerBytes_subset_headerRegion {bs : List Block} {b : Block} (hb : b ∈ bs) :
    b.headerBytes x ⊆ headerRegion x bs :=
  fun _ hc => ⟨b, hb, hc⟩

theorem headerRegion_mono {bs cs : List Block} (h : ∀ b ∈ bs, b ∈ cs) :
    headerRegion x bs ⊆ headerRegion x cs :=
  fun _ ⟨b, hb, hc⟩ => ⟨b, h b hb, hc⟩

theorem headerRegion_subset_scratch (bs : List Block) : headerRegion x bs ⊆ scratch x bs :=
  fun _ ⟨b, hb, hc⟩ => ⟨b, hb, .inl hc⟩

theorem bytes_subset_scratch {bs : List Block} {b : Block} (hb : b ∈ bs) (hfree : b.free = true) :
    b.bytes x ⊆ scratch x bs :=
  fun _ hc => ⟨b, hb, .inr ⟨hfree, hc⟩⟩

theorem scratch_subset_region (bs : List Block) : scratch x bs ⊆ region x bs := by
  rintro c ⟨b, hb, hc | ⟨-, hc⟩⟩
  · exact ⟨b, hb, b.headerBytes_subset_bytes x hc⟩
  · exact ⟨b, hb, hc⟩

@[simp] theorem headerRegion_append (l r : List Block) :
    headerRegion x (l ++ r) = headerRegion x l ∪ headerRegion x r := by
  ext c
  simp [headerRegion, or_and_right, exists_or]

@[simp] theorem headerRegion_cons (b : Block) (r : List Block) :
    headerRegion x (b :: r) = b.headerBytes x ∪ headerRegion x r := by
  ext c
  simp [headerRegion]

@[simp] theorem headerRegion_singleton (b : Block) : headerRegion x [b] = b.headerBytes x := by
  ext c
  simp [headerRegion]

@[simp] theorem region_append (l r : List Block) :
    region x (l ++ r) = region x l ∪ region x r := by
  ext c
  simp [region, or_and_right, exists_or]

@[simp] theorem region_cons (b : Block) (r : List Block) :
    region x (b :: r) = b.bytes x ∪ region x r := by
  ext c
  simp [region]

@[simp] theorem region_singleton (b : Block) : region x [b] = b.bytes x := by
  ext c
  simp [region]

@[simp] theorem scratch_append (l r : List Block) :
    scratch x (l ++ r) = scratch x l ∪ scratch x r := by
  ext c
  simp [scratch, or_and_right, exists_or]

/-! ### Free and allocated blocks -/

/-- The allocated blocks of a list. -/
def live (bs : List Block) : List Block := bs.filter fun b => !b.free

theorem mem_live {bs : List Block} {b : Block} : b ∈ live bs ↔ b ∈ bs ∧ b.free = false := by
  simp [live]

@[simp] theorem live_append (l r : List Block) : live (l ++ r) = live l ++ live r :=
  List.filter_append l r

theorem live_cons_of_free {b : Block} {r : List Block} (h : b.free = true) :
    live (b :: r) = live r := by
  simp [live, h]

theorem live_cons_of_not_free {b : Block} {r : List Block} (h : b.free = false) :
    live (b :: r) = b :: live r := by
  simp [live, h]

/-- The payloads of the allocated blocks without that of one block. -/
theorem Placed.exists_payload_iff {low high : Nat} {l r : List Block} {b : Block}
    (h : Placed x low (l ++ b :: r) high) (hlive : b.free = false) (p : Nat) :
    (∃ c ∈ live l ++ live r, c.payload x = p) ↔
      (∃ c ∈ live (l ++ b :: r), c.payload x = p) ∧ p ≠ b.payload x := by
  obtain ⟨hl, -, hr⟩ := placed_append_cons.1 h
  have hother (c : Block) (hc : c ∈ live l ++ live r) : c.payload x ≠ b.payload x := by
    have hstop := c.address_lt_stop x
    have hstop' := b.address_lt_stop x
    intro heq
    have haddress : c.address = b.address := Nat.add_right_cancel heq
    rcases List.mem_append.1 hc with hc | hc
    · have hle := (hl.of_mem (mem_live.1 hc).1).2.2
      omega
    · have hle := (hr.of_mem (mem_live.1 hc).1).1
      omega
  have hmem (c : Block) : c ∈ live (l ++ b :: r) ↔ c = b ∨ c ∈ live l ++ live r := by
    rw [live_append, live_cons_of_not_free hlive, List.mem_append, List.mem_cons, List.mem_append]
    exact or_left_comm
  constructor
  · rintro ⟨c, hc, rfl⟩
    exact ⟨⟨c, (hmem c).2 (.inr hc), rfl⟩, hother c hc⟩
  · rintro ⟨⟨c, hc, rfl⟩, hne⟩
    rcases (hmem c).1 hc with rfl | hc
    · exact absurd rfl hne
    · exact ⟨c, hc, rfl⟩

/-- The payload of an allocated block belongs to the program. -/
theorem Placed.not_mem_scratch {low high : Nat} {bs : List Block} (h : Placed x low bs high)
    {b : Block} (hb : b ∈ live bs) {c : Nat} (hc : c ∈ b.payloadBytes x) : c ∉ scratch x bs := by
  obtain ⟨hmem, hlive⟩ := mem_live.1 hb
  rintro ⟨d, hd, hdc⟩
  have hd' : c ∈ d.bytes x := by
    rcases hdc with hdc | ⟨-, hdc⟩
    · exact d.headerBytes_subset_bytes x hdc
    · exact hdc
  have hbc := b.payloadBytes_subset_bytes x hc
  by_cases hne : b = d
  · subst hne
    rcases hdc with hdc | ⟨hfree, -⟩
    · exact absurd hdc.2 (Nat.not_lt.2 hc.1)
    · rw [hlive] at hfree
      exact Bool.noConfusion hfree
  · have h1 := hbc.1
    have h2 := hbc.2
    have h3 := hd'.1
    have h4 := hd'.2
    rcases h.disjoint hmem hd hne with hle | hle <;> omega

/-- Neither does it lie above the blocks. -/
theorem Placed.not_mem_scratch_union {low high limit : Nat} {bs : List Block}
    (h : Placed x low bs high) {b : Block} (hb : b ∈ live bs) {c : Nat}
    (hc : c ∈ b.payloadBytes x) : c ∉ scratch x bs ∪ Set.Ico high limit := by
  rintro (hs | hs)
  · exact h.not_mem_scratch hb hc hs
  · have hstop := (h.of_mem (mem_live.1 hb).1).2.2
    have hlt := hc.2
    exact absurd hs.1 (by omega)

/-- Both blocks are free and the second lies right behind the first. -/
def Mergeable (x : Xlen) (b c : Block) : Prop :=
  b.free = true ∧ c.free = true ∧ c.address = b.stop x

instance (b c : Block) : Decidable (Mergeable x b c) :=
  inferInstanceAs (Decidable (_ ∧ _))

/-- No two free blocks are adjacent. -/
def Apart (x : Xlen) (bs : List Block) : Prop := bs.IsChain fun b c => ¬ Mergeable x b c

theorem apart_append_cons {l r : List Block} {b : Block} :
    Apart x (l ++ b :: r) ↔ Apart x (l ++ [b]) ∧ Apart x (b :: r) :=
  List.isChain_split

theorem apart_append_cons_cons {l r : List Block} {b c : Block} :
    Apart x (l ++ b :: c :: r) ↔ Apart x (l ++ [b]) ∧ ¬ Mergeable x b c ∧ Apart x (c :: r) :=
  List.isChain_append_cons_cons

theorem apart_cons_cons {r : List Block} {b c : Block} :
    Apart x (b :: c :: r) ↔ ¬ Mergeable x b c ∧ Apart x (c :: r) :=
  List.isChain_cons_cons

theorem apart_left {l : List Block} {b : Block} (h : Apart x (l ++ [b])) : Apart x l :=
  List.IsChain.left_of_append h

/-- An allocated block may follow any other. -/
theorem apart_concat {l : List Block} {b : Block} (hl : Apart x l) (hb : b.free = false) :
    Apart x (l ++ [b]) := by
  refine List.IsChain.append hl (List.isChain_singleton b) fun c _ d hd hm => ?_
  have hbd : b = d := by simpa using hd
  rw [← hbd] at hm
  rw [hm.2.1] at hb
  exact Bool.noConfusion hb

end Hart
