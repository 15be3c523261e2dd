/-
Arenas that represent lists of blocks.

`Arena.Represents a bs` says that the memory of `a` holds the headers of the
blocks `bs`, linked to each other in both directions, and that the heap knows
both ends of the list.  `Arena.Around a l b r` says the same with a hole: the
header of `b`, between `l` and `r`, may hold anything.

On such an arena the checks of the allocator never fail and its walks find what
the list says:

* `Represents.header_eq` — the header of a block is loaded as it is;
* `Represents.blocks_eq` — the walk over all blocks answers with their headers;
* `Represents.allocated_of_mem`, `Represents.allocated_of_not_mem` — a pointer is
  found exactly when it is the payload of an allocated block;
* `Represents.firstFit_some`, `Represents.firstFit_none` — the first free block
  that is large enough.

Design notes: `Linked` is the doubly linked segment of separation logic, from the
address before the list to the one after it, so that a list is cut at any block
(`linked_append_cons`) and each side survives edits of the other
(`Linked.congr`).
-/
import Hart.Proofs.Heap.Outcome

namespace Hart

variable {x : Xlen}

/-- The windows that a heap may span. -/
structure Window (x : Xlen) (base limit : Nat) : Prop where
  base_ne : base ≠ null
  base_dvd : x.bytes ∣ base
  room : base + headerSize x ≤ limit
  limit_le : limit ≤ min (x.maxAddress + 1) (wordLimit - 1)

theorem Window.base_pos {base limit : Nat} (h : Window x base limit) : 0 < base :=
  Nat.pos_of_ne_zero h.base_ne

theorem Window.limit_le_space {base limit : Nat} (h : Window x base limit) : limit ≤ x.space := by
  have := h.limit_le
  have := x.space_pos
  unfold Xlen.maxAddress at *
  omega

theorem Window.limit_lt_wordLimit {base limit : Nat} (h : Window x base limit) :
    limit < wordLimit := by
  have := h.limit_le
  unfold wordLimit at *
  omega

/-! ### Linked blocks in memory -/

/-- The headers of the blocks are stored and linked to each other, to `prev`
before and to `next` after. -/
def Linked (m : Memory x) : Nat → List Block → Nat → Prop
  | _, [], _ => True
  | prev, b :: r, next => m.Holds (b.header (front r next) prev) ∧ Linked m b.address r next

theorem linked_append_cons {m : Memory x} {prev next : Nat} {l r : List Block} {b : Block} :
    Linked m prev (l ++ b :: r) next ↔
      Linked m prev l b.address ∧ m.Holds (b.header (front r next) (back prev l)) ∧
        Linked m b.address r next := by
  induction l generalizing prev with
  | nil =>
    show _ ↔ True ∧ _
    rw [true_and]
    rfl
  | cons c l ih =>
    rw [List.cons_append, Linked, ih, Linked, front_append, and_assoc]
    rfl

theorem Linked.congr {m m' : Memory x} {prev next : Nat} {bs : List Block}
    (h : Linked m prev bs next)
    (heq : ∀ b ∈ bs, ∀ c ∈ b.headerBytes x, m'.loadByte c = m.loadByte c) :
    Linked m' prev bs next := by
  induction bs generalizing prev with
  | nil => trivial
  | cons b r ih =>
    refine ⟨h.1.congr fun c hlow hhigh => heq b List.mem_cons_self c ⟨hlow, hhigh⟩, ?_⟩
    exact ih h.2 fun d hd => heq d (List.mem_cons_of_mem b hd)

/-- The block is free and holds `need` bytes. -/
def Block.Suits (need : Nat) (b : Block) : Prop := b.free = true ∧ need ≤ b.size

instance (need : Nat) (b : Block) : Decidable (b.Suits need) :=
  inferInstanceAs (Decidable (_ ∧ _))

/-- A list has a first block that suits, or none does. -/
theorem exists_first_suits (need : Nat) (bs : List Block) :
    (∃ l b r, bs = l ++ b :: r ∧ (∀ c ∈ l, ¬ c.Suits need) ∧ b.Suits need) ∨
      ∀ c ∈ bs, ¬ c.Suits need := by
  cases hfind : bs.find? fun c => decide (c.Suits need) with
  | none =>
    right
    simpa using hfind
  | some b =>
    left
    obtain ⟨hb, l, r, heq, hl⟩ := List.find?_eq_some_iff_append.1 hfind
    exact ⟨l, b, r, heq, by simpa using hl, by simpa using hb⟩

/-- The headers of a list of blocks, given the address before it. -/
def headers : Nat → List Block → List Header
  | _, [] => []
  | prev, b :: r => b.header (front r null) prev :: headers b.address r

/-- What a header says about its own block. -/
def Header.block (b : Header) : Block := ⟨b.address, b.size, b.free⟩

@[simp] theorem map_block_headers (prev : Nat) (bs : List Block) :
    (headers prev bs).map Header.block = bs := by
  induction bs generalizing prev with
  | nil => rfl
  | cons b r ih =>
    rw [headers, List.map_cons, ih]
    rfl

theorem block_mem_of_mem_headers {prev : Nat} {bs : List Block} {b : Header}
    (hb : b ∈ headers prev bs) : b.block ∈ bs := by
  rw [← map_block_headers prev bs]
  exact List.mem_map_of_mem hb

namespace Arena

/-- The heap of the arena has room for the blocks where they lie. -/
structure Laid (a : Arena x) (bs : List Block) : Prop where
  window : Window x a.heap.base a.heap.limit
  brk_le : a.heap.brk ≤ a.heap.limit
  placed : Placed x a.heap.base bs a.heap.brk

/-- The blocks are those of the arena. -/
structure Represents (a : Arena x) (bs : List Block) : Prop extends Laid a bs where
  head_eq : a.heap.head = front bs null
  tail_eq : a.heap.tail = back null bs
  linked : Linked a.memory null bs null

/-- The blocks `l`, `b` and `r` are those of the arena, but the header of `b` is
yet to be written. -/
structure Around (a : Arena x) (l : List Block) (b : Block) (r : List Block) : Prop
    extends Laid a (l ++ b :: r) where
  head_eq : a.heap.head = front l b.address
  tail_eq : a.heap.tail = back b.address r
  before : Linked a.memory null l b.address
  after : Linked a.memory b.address r null

variable {a : Arena x} {l r bs : List Block} {b c : Block}

namespace Laid

theorem stop_le (h : a.Laid bs) (hb : b ∈ bs) : b.stop x ≤ a.heap.limit :=
  (h.placed.of_mem hb).2.2.trans h.brk_le

theorem stop_le_space (h : a.Laid bs) (hb : b ∈ bs) : b.stop x ≤ x.space :=
  (h.stop_le hb).trans h.window.limit_le_space

theorem stop_lt_wordLimit (h : a.Laid bs) (hb : b ∈ bs) : b.stop x < wordLimit :=
  Nat.lt_of_le_of_lt (h.stop_le hb) h.window.limit_lt_wordLimit

theorem headerPlace (h : a.Laid bs) (hb : b ∈ bs) : HeaderPlace x b.address where
  dvd := (h.placed.of_mem hb).2.1.address_dvd
  stop_le := by
    have := h.stop_le_space hb
    unfold Block.stop Block.payload at this
    omega

theorem address_lt (h : a.Laid bs) (hb : b ∈ bs) : b.address < x.space :=
  Nat.lt_of_lt_of_le (b.address_lt_stop x) (h.stop_le_space hb)

theorem size_lt (h : a.Laid bs) (hb : b ∈ bs) : b.size < x.space := by
  have := h.stop_le_space hb
  have := headerSize_pos x
  unfold Block.stop Block.payload at *
  omega

theorem address_ne (h : a.Laid bs) (hb : b ∈ bs) : b.address ≠ null :=
  Nat.ne_of_gt (Nat.lt_of_lt_of_le h.window.base_pos (h.placed.of_mem hb).1)

theorem contains (h : a.Laid bs) (hb : b ∈ bs) : a.heap.Contains b.address := by
  have := h.placed.of_mem hb
  have := b.address_lt_stop x
  exact ⟨by omega, by omega⟩

theorem front_lt (h : a.Laid bs) (hr : ∀ b ∈ r, b ∈ bs) : front r null < x.space := by
  rcases front_eq_or_mem r null with heq | ⟨b, hb, heq⟩
  · rw [heq]
    exact x.space_pos
  · rw [heq]
    exact h.address_lt (hr b hb)

theorem back_lt (h : a.Laid bs) (hl : ∀ b ∈ l, b ∈ bs) : back null l < x.space := by
  rcases back_eq_or_mem null l with heq | ⟨b, hb, heq⟩
  · rw [heq]
    exact x.space_pos
  · rw [heq]
    exact h.address_lt (hl b hb)

theorem linkOk_front (h : a.Laid bs) (hr : ∀ b ∈ r, b ∈ bs) : a.heap.LinkOk (front r null) := by
  rcases front_eq_or_mem r null with heq | ⟨b, hb, heq⟩
  · exact .inl heq
  · rw [heq]
    exact .inr (h.contains (hr b hb))

theorem linkOk_back (h : a.Laid bs) (hl : ∀ b ∈ l, b ∈ bs) : a.heap.LinkOk (back null l) := by
  rcases back_eq_or_mem null l with heq | ⟨b, hb, heq⟩
  · exact .inl heq
  · rw [heq]
    exact .inr (h.contains (hl b hb))

/-- The checks that a header is put to when it is reached. -/
theorem header_eq (h : a.Laid bs) (hb : b ∈ bs) {next prev : Nat} (hnext : a.heap.LinkOk next)
    (hprev : a.heap.LinkOk prev) (hholds : a.memory.Holds (b.header next prev)) :
    a.header b.address = .ok (b.header next prev) := by
  have hload : Header.load a.memory b.address = .ok (b.header next prev) :=
    Header.load_of_holds (b := b.header next prev) (h.headerPlace hb).dvd hholds
  have hstop : (b.header next prev).stop x ≤ a.heap.brk := (h.placed.of_mem hb).2.2
  rw [header, if_pos (h.contains hb), hload]
  exact if_pos ⟨hnext, hprev, hstop⟩

/-- The number of blocks stays below the bound of the walks. -/
theorem length_lt (h : a.Laid bs) : bs.length < a.heap.maxBlocks := by
  have := h.placed.length_mul_le
  unfold Heap.maxBlocks
  exact Nat.lt_succ_of_le ((Nat.le_div_iff_mul_le (headerSize_pos x)).2 (by omega))

theorem length_lt_wordLimit (h : a.Laid bs) : bs.length + 1 < wordLimit := by
  have hlen := h.placed.length_mul_le
  have hbrk := h.brk_le
  have hlimit := h.window.limit_lt_wordLimit
  have hbase := h.window.base_pos
  have hone : bs.length * 1 ≤ bs.length * headerSize x := Nat.mul_le_mul_left _ (headerSize_pos x)
  omega

end Laid

namespace Represents

theorem header_eq (h : a.Represents (l ++ b :: r)) :
    a.header b.address = .ok (b.header (front r null) (back null l)) := by
  refine h.toLaid.header_eq (by simp) ?_ ?_ (linked_append_cons.1 h.linked).2.1
  · exact h.toLaid.linkOk_front fun c hc => by simp [hc]
  · exact h.toLaid.linkOk_back fun c hc => by simp [hc]

theorem tail_eq_last (h : a.Represents (l ++ [b])) : a.heap.tail = b.address :=
  h.tail_eq.trans (back_append null l [b])

theorem around (h : a.Represents (l ++ b :: r)) : a.Around l b r where
  toLaid := h.toLaid
  head_eq := h.head_eq.trans (front_append _ _ _)
  tail_eq := h.tail_eq.trans (back_append _ _ _)
  before := (linked_append_cons.1 h.linked).1
  after := (linked_append_cons.1 h.linked).2.2

end Represents

/-- The header behind a hole can be read. -/
theorem Around.header_next_eq (h : a.Around l b (c :: r)) :
    a.header c.address = .ok (c.header (front r null) b.address) := by
  refine h.toLaid.header_eq (by simp) ?_ ?_ h.after.1
  · exact h.toLaid.linkOk_front fun d hd => by simp [hd]
  · exact .inr (h.toLaid.contains (by simp))

/-- A hole is filled by its header. -/
theorem Around.represents (h : a.Around l b r)
    (hholds : a.memory.Holds (b.header (front r null) (back null l))) :
    a.Represents (l ++ b :: r) where
  toLaid := h.toLaid
  head_eq := h.head_eq.trans (front_append l (b :: r) null).symm
  tail_eq := h.tail_eq.trans (back_append null l (b :: r)).symm
  linked := linked_append_cons.2 ⟨h.before, hholds, h.after⟩

/-! ### Walks -/

namespace Represents

theorem blocksFrom_eq (h : a.Represents (l ++ r)) {fuel : Nat} (hfuel : r.length ≤ fuel)
    (seen : List Header) :
    a.blocksFrom fuel (front r null) seen = .ok ((headers (back null l) r).reverse ++ seen) := by
  -- Induction on the blocks ahead; those that were passed move over to `l`.
  induction r generalizing l fuel seen with
  | nil =>
    rw [blocksFrom, if_pos (front_nil null)]
    rfl
  | cons b r ih =>
    obtain ⟨fuel, rfl⟩ := Nat.exists_eq_succ_of_ne_zero (Nat.ne_zero_of_lt
      (Nat.lt_of_succ_le hfuel))
    have hne : b.address ≠ null := h.toLaid.address_ne (by simp)
    have hrest : a.Represents ((l ++ [b]) ++ r) := by simpa using h
    have hback : back null (l ++ [b]) = b.address := by simp
    rw [front_cons, blocksFrom, if_neg hne, h.header_eq]
    show a.blocksFrom fuel (front r null) _ = _
    rw [ih hrest (Nat.le_of_succ_le_succ hfuel), hback, headers, List.reverse_cons,
      List.append_assoc, List.singleton_append]

/-- The walk over all blocks answers with their headers. -/
theorem blocks_eq (h : a.Represents bs) : a.blocks = .ok (headers null bs) := by
  have hwalk := blocksFrom_eq (l := []) (r := bs) h (Nat.le_of_lt h.toLaid.length_lt) []
  rw [blocks, h.head_eq, hwalk, back_nil, List.append_nil]
  show Except.ok (headers null bs).reverse.reverse = _
  rw [List.reverse_reverse]

/-- The blocks of an arena are determined. -/
theorem unique {bs' : List Block} (h : a.Represents bs) (h' : a.Represents bs') : bs = bs' := by
  have hheaders := Except.ok.inj (h.blocks_eq.symm.trans h'.blocks_eq)
  have hblocks := congrArg (List.map Header.block) hheaders
  rw [map_block_headers, map_block_headers] at hblocks
  exact hblocks

/-- The search for a pointer goes on behind a block with another payload below it. -/
theorem allocatedFrom_skip (h : a.Represents (l ++ b :: r)) {pointer : Nat}
    (hbelow : b.address + headerSize x ≤ pointer) (hother : b.payload x ≠ pointer) (fuel : Nat) :
    a.allocatedFrom pointer (fuel + 1) b.address = a.allocatedFrom pointer fuel (front r null) := by
  have hne : b.address ≠ null := h.toLaid.address_ne (by simp)
  rw [allocatedFrom, if_pos ⟨hne, hbelow⟩, h.header_eq]
  show (if _ then _ else _) = _
  rw [Block.payload_header, if_neg hother]
  rfl

theorem allocatedFrom_of_mem {k : List Block} (h : a.Represents (l ++ (k ++ b :: r)))
    (hlive : b.free = false) {fuel : Nat} (hfuel : k.length < fuel) :
    a.allocatedFrom (b.payload x) fuel (front (k ++ b :: r) null) =
      .ok (b.header (front r null) (back null (l ++ k))) := by
  induction k generalizing l fuel with
  | nil =>
    have hne : b.address ≠ null := h.toLaid.address_ne (by simp)
    have hheader : a.header b.address = .ok (b.header (front r null) (back null l)) := h.header_eq
    rw [List.nil_append, front_cons, List.append_nil]
    unfold allocatedFrom
    rw [if_pos ⟨hne, Nat.le_refl _⟩, hheader]
    show (if _ then _ else _) = _
    rw [Block.payload_header, if_pos rfl, Block.header_free, hlive]
    rfl
  | cons d k ih =>
    obtain ⟨fuel, rfl⟩ := Nat.exists_eq_succ_of_ne_zero (Nat.ne_zero_of_lt hfuel)
    have hplaced := (placed_append_cons.1 h.placed).2.2
    have hle : d.stop x ≤ b.address := (hplaced.of_mem (b := b) (by simp)).1
    -- Blocks before `b` have their payloads below that of `b`.
    have hbelow : d.address + headerSize x ≤ b.payload x := by
      unfold Block.stop Block.payload at *
      omega
    have hother : d.payload x ≠ b.payload x := by
      have := d.address_lt_stop x
      unfold Block.payload
      omega
    have hrest : a.Represents ((l ++ [d]) ++ (k ++ b :: r)) := by simpa using h
    have hstep := ih hrest (Nat.lt_of_succ_lt_succ hfuel)
    rw [List.cons_append] at h ⊢
    rw [front_cons, allocatedFrom_skip h hbelow hother, hstep, List.append_assoc,
      List.singleton_append]

theorem allocatedFrom_of_not_mem (h : a.Represents (l ++ r)) {pointer : Nat}
    (hnone : ∀ b ∈ r, b.free = false → b.payload x ≠ pointer) {fuel : Nat}
    (hfuel : r.length ≤ fuel) :
    a.allocatedFrom pointer fuel (front r null) = .error (.invalidPointer pointer) := by
  induction r generalizing l fuel with
  | nil =>
    unfold allocatedFrom
    exact if_neg fun hbad => hbad.1 rfl
  | cons b r ih =>
    obtain ⟨fuel, rfl⟩ := Nat.exists_eq_succ_of_ne_zero (Nat.ne_zero_of_lt
      (Nat.lt_of_succ_le hfuel))
    have hrest : a.Represents ((l ++ [b]) ++ r) := by simpa using h
    have hstep := ih hrest (fun c hc => hnone c (List.mem_cons_of_mem b hc))
      (Nat.le_of_succ_le_succ hfuel)
    rw [front_cons]
    by_cases hbelow : b.address ≠ null ∧ b.address + headerSize x ≤ pointer
    · by_cases hpayload : b.payload x = pointer
      · -- The pointer belongs to a free block, and the search ends here.
        have hfree : b.free = true := by
          by_contra hlive
          exact hnone b List.mem_cons_self (by simpa using hlive) hpayload
        rw [allocatedFrom, if_pos hbelow, h.header_eq]
        show (if _ then _ else _) = _
        rw [Block.payload_header, if_pos hpayload, Block.header_free, if_pos hfree]
      · rw [allocatedFrom_skip h hbelow.2 hpayload]
        exact hstep
    · -- The blocks are in order, so the search has gone past the pointer.
      rw [allocatedFrom, if_neg hbelow]

/-- The payload of an allocated block is found. -/
theorem allocated_of_mem (h : a.Represents (l ++ b :: r)) (hlive : b.free = false) :
    a.allocated (b.payload x) = .ok (b.header (front r null) (back null l)) := by
  have hplaced := h.placed.of_mem (b := b) (by simp)
  have hlow : a.heap.base + headerSize x ≤ b.payload x := Nat.add_le_add_right hplaced.1 _
  have hhigh : b.payload x < a.heap.brk :=
    Nat.lt_of_lt_of_le (Block.payload_lt_stop hplaced.2.1) hplaced.2.2
  have hlen : l.length < a.heap.maxBlocks := by
    refine Nat.lt_of_le_of_lt ?_ h.toLaid.length_lt
    simp
  have hwalk := allocatedFrom_of_mem (l := []) (k := l) h hlive hlen
  rw [allocated, if_pos ⟨hlow, hhigh⟩, h.head_eq]
  exact hwalk

/-- Any other pointer is invalid. -/
theorem allocated_of_not_mem (h : a.Represents bs) {pointer : Nat}
    (hnone : ∀ b ∈ bs, b.free = false → b.payload x ≠ pointer) :
    a.allocated pointer = .error (.invalidPointer pointer) := by
  have hwalk := allocatedFrom_of_not_mem (l := []) h hnone (Nat.le_of_lt h.toLaid.length_lt)
  rw [allocated, h.head_eq, hwalk]
  exact ite_self _

/-- The search for a block goes on behind one that does not suit. -/
theorem firstFitFrom_skip {need : Nat} (h : a.Represents (l ++ b :: r)) (hb : ¬ b.Suits need)
    (fuel : Nat) :
    a.firstFitFrom need (fuel + 1) b.address = a.firstFitFrom need fuel (front r null) := by
  have hne : b.address ≠ null := h.toLaid.address_ne (by simp)
  have hskip : ¬ (b.free = true ∧ need ≤ b.size) := hb
  rw [firstFitFrom, if_neg hne, h.header_eq]
  show (if _ then _ else _) = _
  rw [Block.header_free, Block.header_size, if_neg hskip]
  rfl

theorem firstFitFrom_some {k : List Block} {need : Nat} (h : a.Represents (l ++ (k ++ b :: r)))
    (hk : ∀ c ∈ k, ¬ c.Suits need) (hb : b.Suits need) {fuel : Nat} (hfuel : k.length < fuel) :
    a.firstFitFrom need fuel (front (k ++ b :: r) null) =
      .ok (some (b.header (front r null) (back null (l ++ k)))) := by
  induction k generalizing l fuel with
  | nil =>
    have hne : b.address ≠ null := h.toLaid.address_ne (by simp)
    have hheader : a.header b.address = .ok (b.header (front r null) (back null l)) := h.header_eq
    rw [List.nil_append, front_cons, List.append_nil]
    unfold firstFitFrom
    rw [if_neg hne, hheader]
    exact if_pos hb
  | cons d k ih =>
    obtain ⟨fuel, rfl⟩ := Nat.exists_eq_succ_of_ne_zero (Nat.ne_zero_of_lt hfuel)
    have hrest : a.Represents ((l ++ [d]) ++ (k ++ b :: r)) := by simpa using h
    have hstep := ih hrest (fun c hc => hk c (List.mem_cons_of_mem d hc))
      (Nat.lt_of_succ_lt_succ hfuel)
    rw [List.cons_append] at h ⊢
    rw [front_cons, firstFitFrom_skip h (hk d List.mem_cons_self), hstep, List.append_assoc,
      List.singleton_append]

theorem firstFitFrom_none {need : Nat} (h : a.Represents (l ++ r)) (hr : ∀ c ∈ r, ¬ c.Suits need)
    {fuel : Nat} (hfuel : r.length ≤ fuel) :
    a.firstFitFrom need fuel (front r null) = .ok none := by
  induction r generalizing l fuel with
  | nil =>
    unfold firstFitFrom
    exact if_pos rfl
  | cons b r ih =>
    obtain ⟨fuel, rfl⟩ := Nat.exists_eq_succ_of_ne_zero (Nat.ne_zero_of_lt
      (Nat.lt_of_succ_le hfuel))
    have hrest : a.Represents ((l ++ [b]) ++ r) := by simpa using h
    have hstep := ih hrest (fun c hc => hr c (List.mem_cons_of_mem b hc))
      (Nat.le_of_succ_le_succ hfuel)
    rw [front_cons, firstFitFrom_skip h (hr b List.mem_cons_self)]
    exact hstep

/-- The first block that suits is found. -/
theorem firstFit_some {need : Nat} (h : a.Represents (l ++ b :: r)) (hl : ∀ c ∈ l, ¬ c.Suits need)
    (hb : b.Suits need) :
    a.firstFit? need = .ok (some (b.header (front r null) (back null l))) := by
  have hlen : l.length < a.heap.maxBlocks := by
    refine Nat.lt_of_le_of_lt ?_ h.toLaid.length_lt
    simp
  rw [firstFit?, h.head_eq]
  exact firstFitFrom_some (l := []) (k := l) h hl hb hlen

theorem firstFit_none {need : Nat} (h : a.Represents bs) (hnone : ∀ c ∈ bs, ¬ c.Suits need) :
    a.firstFit? need = .ok none := by
  rw [firstFit?, h.head_eq]
  exact firstFitFrom_none (l := []) h hnone (Nat.le_of_lt h.toLaid.length_lt)

end Represents

end Arena

end Hart
