/-
Resizing, as the owner of an allocation sees it.

`Arena.Carried size a hs b q a' hs'` says what a program is promised when it resizes the
allocation `b`, one of the headers `hs` of the arena `a`, to `size` bytes and the answer
is the pointer `q`: the bytes that still fit are at `q`, and every other allocation is
where it was, as it was.

* `Arena.FitsInPlace` — when the allocation need not move;
* `realloc_carries` — on any heap in order a request to resize a live allocation is
  answered: with null, and then nothing has changed, or as promised.

Design notes: the promise is about headers and bytes of memory, which a program can look
at.  Its proof is about the blocks behind them, where `Reallocated` has already told the
ways a request can go.
-/
import Hart.Proofs.Heap.Walks

namespace Hart

open AllocM

variable {x : Xlen}

/-- A number of bytes rounded up to whole cells. -/
def wholeCells (x : Xlen) (size : Nat) : Nat := (size + (x.bytes - 1)) / x.bytes * x.bytes

theorem Address.alignUp?_eq (size : Nat) : Address.alignUp? size x.bytes =
    if size + (x.bytes - 1) < wordLimit then some (wholeCells x size) else none := by
  have hround (v : Nat) : v - v % x.bytes = v / x.bytes * x.bytes := by
    rw [Nat.mul_comm]
    have hdiv := Nat.div_add_mod v x.bytes
    omega
  show (if _ then some _ else none) = _
  rw [Address.and_bytes_sub_one, hround]
  rfl

theorem Address.eq_wholeCells {v w : Nat} (h : Address.alignUp? v x.bytes = some w) :
    w = wholeCells x v := by
  rw [Address.alignUp?_eq] at h
  split at h
  · exact (Option.some.inj h).symm
  · cases h

/-- A request that the window could hold is not turned away for its size. -/
theorem Window.roundSize?_eq_some {h : Heap x} (hw : Window x h.base h.limit) {size : Nat}
    (hle : wholeCells x size ≤ h.limit - h.base) :
    h.roundSize? size = some (wholeCells x size) := by
  have hbytes : x.bytes ≤ h.base := Nat.le_of_dvd hw.base_pos hw.base_dvd
  have hlimit := hw.limit_lt_wordLimit
  have hroom := hw.room
  have hraised : size + (x.bytes - 1) < wholeCells x size + x.bytes :=
    Nat.lt_div_mul_add x.bytes_pos
  have hsum : size + (x.bytes - 1) < wordLimit := by omega
  rw [Heap.roundSize?, Address.alignUp?_eq, if_pos hsum]
  exact Option.filter_eq_some_iff.2 ⟨rfl, decide_eq_true hle⟩

theorem Heap.eq_wholeCells {h : Heap x} {size need : Nat} (hround : h.roundSize? size = some need) :
    need = wholeCells x size :=
  Address.eq_wholeCells (Option.filter_eq_some_iff.1 hround).1

/-- The block that starts where another stops is the one behind it. -/
theorem Placed.exists_cons_of_address_eq {low high : Nat} {l r : List Block} {b n : Block}
    (h : Placed x low (l ++ b :: r) high) (hn : n ∈ l ++ b :: r) (hstop : n.address = b.stop x) :
    ∃ r', r = n :: r' := by
  obtain ⟨hl, -, hr⟩ := placed_append_cons.1 h
  have hlt := b.address_lt_stop x
  have hlt' := n.address_lt_stop x
  rcases List.mem_append.1 hn with hn | hn
  · have hle := (hl.of_mem hn).2.2
    omega
  rcases List.mem_cons.1 hn with rfl | hn
  · omega
  cases r with
  | nil => cases hn
  | cons e r =>
    rcases List.mem_cons.1 hn with rfl | hn
    · exact ⟨r, rfl⟩
    · -- A block in between would have no room.
      have hlow := hr.1
      have hnext := (hr.2.2.of_mem hn).1
      have hlt'' := e.address_lt_stop x
      omega

/-- The allocations other than one, by their pointers. -/
theorem Placed.mem_live_sides_iff {low high : Nat} {l r : List Block} {b c : Block}
    (h : Placed x low (l ++ b :: r) high) (hlive : b.free = false) :
    c ∈ live l ++ live r ↔ c ∈ live (l ++ b :: r) ∧ c.payload x ≠ b.payload x := by
  have hmem : c ∈ live (l ++ b :: r) ↔ c ∈ live l ∨ c = b ∨ c ∈ live r := by
    rw [live_append, live_cons_of_not_free hlive, List.mem_append, List.mem_cons]
  rw [hmem, List.mem_append]
  constructor
  · intro hc
    have hne := ((h.exists_payload_iff hlive _).1 ⟨c, List.mem_append.2 hc, rfl⟩).2
    exact ⟨hc.imp_right .inr, hne⟩
  · rintro ⟨hc | rfl | hc, hne⟩
    · exact .inl hc
    · exact absurd rfl hne
    · exact .inr hc

namespace Arena

/-- The allocation can hold `need` bytes where it is: it does so already, or it does
together with the free block right behind it, or it is the last block, ends at the mark,
and the limit leaves room. -/
def FitsInPlace (a : Arena x) (hs : List Header) (b : Header) (need : Nat) : Prop :=
  need ≤ b.size ∨
    (∃ n ∈ hs, n.free = true ∧ n.address = b.stop x ∧ need ≤ b.size + headerSize x + n.size) ∨
    (a.heap.tail = b.address ∧ b.stop x = a.heap.brk ∧ b.payload x + need ≤ a.heap.limit)

/-- The allocation `c` is among the headers `hs'` with the bytes that it had. -/
def Stays (a a' : Arena x) (hs' : List Header) (c : Header) : Prop :=
  ∃ d ∈ hs', d.free = false ∧ d.address = c.address ∧ d.size = c.size ∧
    ∀ i < c.size, a'.memory.loadByte (c.payload x + i) = a.memory.loadByte (c.payload x + i)

/-- The allocation `b` lives on at `q` with `size` bytes, and the others as they were. -/
structure Carried (size : Nat) (a : Arena x) (hs : List Header) (b : Header) (q : Nat)
    (a' : Arena x) (hs' : List Header) : Prop where
  blocks_eq : a'.blocks = .ok hs'
  wellFormed : a'.heap.WellFormed hs'
  live : ∃ b' ∈ hs', b'.free = false ∧ b'.payload x = q ∧ size ≤ b'.size
  contents : ∀ i < min b.size (wholeCells x size),
    a'.memory.loadByte (q + i) = a.memory.loadByte (b.payload x + i)
  active_eq : a'.heap.active = a.heap.active
  eq_of_live : ∀ c ∈ hs', c.free = false → c.payload x = b.payload x → q = b.payload x
  others : ∀ c ∈ hs, c.free = false → c.payload x ≠ b.payload x → Stays a a' hs' c

variable {a a' : Arena x} {bs bs' l r : List Block} {b b' c : Block} {need q size : Nat}
  {R : Set Nat}

/-! ### Bytes that a resize leaves alone -/

/-- A byte of a live payload changes only where the change was allowed. -/
theorem Laid.loadByte_payload (h : a.Laid bs) (he : Evolves R a a') (hc : c ∈ bs) {i : Nat}
    (hi : i < c.size) (hR : c.payload x + i ∉ R) :
    a'.memory.loadByte (c.payload x + i) = a.memory.loadByte (c.payload x + i) := by
  have hspace := h.stop_le_space hc
  have hlt : c.payload x + i < c.stop x := Nat.add_lt_add_left hi _
  exact he.loadByte_eq _ (Nat.lt_of_lt_of_le hlt hspace) hR

theorem add_mem_payloadBytes {i : Nat} (hi : i < c.size) : c.payload x + i ∈ c.payloadBytes x :=
  ⟨Nat.le_add_right _ _, Nat.add_lt_add_left hi _⟩

/-- Resizing an allocation spares the others. -/
theorem Laid.not_mem_resizable (h : a.Laid bs) (hb : b ∈ bs) (hc : c ∈ live bs) (hne : c ≠ b)
    {k : Nat} (hk : k ∈ c.payloadBytes x) :
    k ∉ resizable x need a.heap.limit bs a.heap.brk b := by
  have hout : k ∉ scratch x bs ∪ Set.Ico a.heap.brk a.heap.limit :=
    h.placed.not_mem_scratch_union hc hk
  rintro ((hin | hin) | hin)
  · exact hout (.inl hin)
  · -- What the one gives up is its own payload.
    have hlow := hk.1
    have hhigh := hk.2
    have hlow' := hin.1
    have hhigh' := hin.2
    have haddress := b.address_lt_payload x
    have haddress' := c.address_lt_payload x
    rcases h.placed.disjoint (mem_live.1 hc).1 hb hne with hle | hle <;> omega
  · exact hout (.inr hin)

/-- It spares the bytes of its own that still fit. -/
theorem Laid.add_not_mem_resizable (h : a.Laid bs) (hb : b ∈ live bs) {i : Nat}
    (hi : i < min b.size need) :
    b.payload x + i ∉ resizable x need a.heap.limit bs a.heap.brk b := by
  have hk : b.payload x + i ∈ b.payloadBytes x := add_mem_payloadBytes (by omega)
  have hout : b.payload x + i ∉ scratch x bs ∪ Set.Ico a.heap.brk a.heap.limit :=
    h.placed.not_mem_scratch_union hb hk
  rintro ((hin | hin) | hin)
  · exact hout (.inl hin)
  · have hlow := hin.1
    omega
  · exact hout (.inr hin)

/-! ### The ways of a resize, one by one -/

theorem exists_header_of_mem (prev : Nat) (hc : c ∈ bs) : ∃ d ∈ headers prev bs, d.block = c := by
  rw [← map_block_headers prev bs] at hc
  exact List.mem_map.1 hc

/-- An allocation whose block stayed, with its bytes, stays. -/
theorem stays_of_mem_live {d : Header} (hd : d.block ∈ live bs')
    (hbytes : ∀ i < d.size,
      a'.memory.loadByte (d.payload x + i) = a.memory.loadByte (d.payload x + i)) :
    Stays a a' (headers null bs') d := by
  obtain ⟨hmem, hlive⟩ := mem_live.1 hd
  obtain ⟨e, he, heq⟩ := exists_header_of_mem null hmem
  refine ⟨e, he, ?_, congrArg Block.address heq, congrArg Block.size heq, hbytes⟩
  exact (congrArg Block.free heq).trans hlive

/-- A live block with the pointer that was answered is the allocation that lives on. -/
theorem exists_live_header (hb' : b' ∈ live bs') (hsize : size ≤ b'.size) :
    ∃ d ∈ headers null bs', d.free = false ∧ d.payload x = b'.payload x ∧ size ≤ d.size := by
  obtain ⟨hmem, hlive⟩ := mem_live.1 hb'
  obtain ⟨d, hd, heq⟩ := exists_header_of_mem null hmem
  have hfree : d.free = b'.free := congrArg Block.free heq
  have haddress : d.address = b'.address := congrArg Block.address heq
  have hsize' : d.size = b'.size := congrArg Block.size heq
  refine ⟨d, hd, hfree.trans hlive, congrArg (· + headerSize x) haddress, ?_⟩
  rw [hsize']
  exact hsize

/-- The allocation `d` changed where it was. -/
theorem Consistent.carried_inPlace (h : a.Consistent bs) {d : Header} (hd : d.block ∈ live bs)
    (hsize : size ≠ 0) (hround : a.heap.roundSize? size = some need)
    (hresized : Resized x need a.heap.limit bs a.heap.brk d.block bs' a'.heap.brk b')
    (hconsistent : a'.Consistent bs')
    (hevolves : Evolves (resizable x need a.heap.limit bs a.heap.brk d.block) a a') :
    Carried size a (headers null bs) d (d.payload x) a' (headers null bs') := by
  obtain ⟨u, v, hu, hv⟩ := hresized.exists_live (mem_live.1 hd).2
  have hle := (Heap.roundSize?_spec hsize hround).2.2.1
  have hpayload : b'.payload x = d.payload x := congrArg (· + headerSize x) hresized.address_eq
  refine ⟨hconsistent.blocks_eq, hconsistent.wellFormed, ?_, fun i hi => ?_, ?_,
    fun _ _ _ _ => rfl, fun e he hlive hne => ?_⟩
  · rw [← hpayload]
    refine exists_live_header ?_ (hle.trans hresized.need_le)
    rw [hv]
    exact List.mem_append_right u List.mem_cons_self
  · rw [← Heap.eq_wholeCells hround] at hi
    exact h.toLaid.loadByte_payload (c := d.block) hevolves (mem_live.1 hd).1
      (Nat.lt_min.1 hi).1 (h.toLaid.add_not_mem_resizable hd hi)
  · rw [hconsistent.active_eq, h.active_eq, hu, hv, List.length_append, List.length_append]
    rfl
  · have hmem : e.block ∈ live bs := mem_live.2 ⟨block_mem_of_mem_headers he, hlive⟩
    have hother : e.block ≠ d.block := fun heq => hne (congrArg (Block.payload x) heq)
    refine stays_of_mem_live ?_ fun i hi => ?_
    · -- The others among the live blocks are on the two sides of the one that changed.
      rw [hu] at hmem
      rw [hv]
      rcases List.mem_append.1 hmem with hin | hin
      · exact List.mem_append_left _ hin
      · rcases List.mem_cons.1 hin with heq | hin
        · exact absurd heq hother
        · exact List.mem_append_right _ (List.mem_cons_of_mem b' hin)
    · exact h.toLaid.loadByte_payload (c := e.block) hevolves (mem_live.1 hmem).1 hi
        (h.toLaid.not_mem_resizable (mem_live.1 hd).1 hmem hother (add_mem_payloadBytes hi))

/-- The allocation `d` moved to the block `b'`. -/
theorem Consistent.carried_moved (h : a.Consistent bs) {d : Header} (hd : d.block ∈ live bs)
    (hsize : size ≠ 0) (hround : a.heap.roundSize? size = some need)
    (hallocated : Allocated x need a.heap.limit bs a.heap.brk (l ++ d.block :: r) a'.heap.brk b')
    (hconsistent : a'.Consistent (released x l d.block r))
    (hevolves : Evolves (scratch x bs ∪ Set.Ico a.heap.brk a.heap.limit) a a')
    (hcopied : ∀ i < d.size,
      a'.memory.loadByte (b'.payload x + i) = a.memory.loadByte (d.payload x + i)) :
    Carried size a (headers null bs) d (b'.payload x) a'
      (headers null (released x l d.block r)) := by
  obtain ⟨hpos, hneed, hle, -⟩ := Heap.roundSize?_spec hsize hround
  have hplaced := hallocated.placed h.placed hpos hneed
  have hlive : d.block.free = false := (mem_live.1 hd).2
  -- Once `d` is released, the live blocks are the new one and the others.
  have hafter (c : Block) : c ∈ live (released x l d.block r) ↔
      (c = b' ∨ c ∈ live bs) ∧ c.payload x ≠ d.payload x := by
    have hperm := hallocated.live_perm.mem_iff (a := c)
    rw [List.mem_cons] at hperm
    rw [← hperm, live_released]
    exact hplaced.mem_live_sides_iff hlive
  refine ⟨hconsistent.blocks_eq, hconsistent.wellFormed, ?_, fun i hi => ?_, ?_,
    fun e he hfree heq => ?_, fun e he hfree hne => ?_⟩
  · have hne := hallocated.payload_ne_of_mem_live h.placed hpos hd
    exact exists_live_header ((hafter b').2 ⟨.inl rfl, hne⟩) (hle.trans hallocated.need_le)
  · exact hcopied i (Nat.lt_min.1 hi).1
  · have hlength := hallocated.live_perm.length_eq
    rw [live_append, live_cons_of_not_free hlive, List.length_append, List.length_cons,
      List.length_cons] at hlength
    rw [hconsistent.active_eq, h.active_eq, live_released, List.length_append]
    omega
  · -- No live block has the old pointer any more.
    have hmem := mem_live.2 ⟨block_mem_of_mem_headers he, hfree⟩
    exact absurd heq ((hafter e.block).1 hmem).2
  · have hmem : e.block ∈ live bs := mem_live.2 ⟨block_mem_of_mem_headers he, hfree⟩
    refine stays_of_mem_live ((hafter e.block).2 ⟨.inr hmem, hne⟩) fun i hi => ?_
    exact h.toLaid.loadByte_payload (c := e.block) hevolves (mem_live.1 hmem).1 hi
      (h.placed.not_mem_scratch_union hmem (add_mem_payloadBytes hi))

/-! ### When the allocation need not move -/

theorem Consistent.exists_resized (h : a.Consistent bs) {d : Header} (hd : d.block ∈ live bs)
    (hfits : a.FitsInPlace (headers null bs) d need) :
    ∃ bs' brk' c, Resized x need a.heap.limit bs a.heap.brk d.block bs' brk' c := by
  obtain ⟨l, r, rfl⟩ := List.append_of_mem (mem_live.1 hd).1
  by_cases hle : need ≤ d.size
  · exact ⟨_, _, _, .shrink hle⟩
  have hlt : d.size < need := Nat.not_le.1 hle
  rcases hfits with hfits | ⟨n, hn, hfree, hstop, hneed⟩ | ⟨-, hstop, hlimit⟩
  · exact absurd hfits hle
  · obtain ⟨r, rfl⟩ := h.placed.exists_cons_of_address_eq (block_mem_of_mem_headers hn) hstop
    exact ⟨_, _, _, .absorb hlt ⟨hfree, hstop, by rwa [Nat.add_assoc] at hneed⟩⟩
  · obtain rfl : r = [] := h.toLaid.eq_nil_of_stop_eq hstop
    exact ⟨_, _, _, .grow hlt hstop hlimit⟩

/-- A size that fits is never too large for the window. -/
theorem Consistent.roundSize?_eq_some (h : a.Consistent bs) {d : Header} (hd : d.block ∈ bs)
    (hfits : a.FitsInPlace (headers null bs) d (wholeCells x size)) :
    a.heap.roundSize? size = some (wholeCells x size) := by
  have hbrk := h.brk_le
  obtain ⟨hlow, -, hhigh⟩ := h.placed.of_mem hd
  have hstop : d.block.stop x = d.address + headerSize x + d.size := rfl
  have haddress : d.block.address = d.address := rfl
  refine h.window.roundSize?_eq_some ?_
  rcases hfits with hfits | ⟨n, hn, -, hnext, hneed⟩ | ⟨-, -, hlimit⟩
  · omega
  · obtain ⟨-, -, hhigh'⟩ := h.placed.of_mem (block_mem_of_mem_headers hn)
    have hstop' : n.block.stop x = n.address + headerSize x + n.size := rfl
    have hnext' : n.address = d.address + headerSize x + d.size := hnext
    omega
  · have hpayload : d.payload x = d.address + headerSize x := rfl
    omega

/-- On a heap in order a request to resize a live allocation is answered.  Null means that
nothing has changed; another answer, that the allocation lives on there.  Where it fits it
stays where it was, and only a request for no bytes is then answered with null. -/
theorem realloc_carries {hs : List Header} {b : Header}
    (hw : Window x a.heap.base a.heap.limit) (hblocks : a.blocks = .ok hs)
    (hwf : a.heap.WellFormed hs) (hb : b ∈ hs) (hlive : b.free = false) (size : Nat) :
    ∃ q a', realloc (b.payload x) size a = .ok q a' ∧
      (q = null → a' = a) ∧
      (q ≠ null → ∃ hs', Carried size a hs b q a' hs') ∧
      (size = 0 → q = null) ∧
      (size ≠ 0 → a.FitsInPlace hs b (wholeCells x size) → q = b.payload x) := by
  obtain ⟨h, heq⟩ := consistent_of_wellFormed hw hblocks hwf
  generalize hs.map Header.block = bs at h heq
  subst heq
  have hmem : b.block ∈ live bs := mem_live.2 ⟨block_mem_of_mem_headers hb, hlive⟩
  obtain ⟨l, r, hsplit⟩ := List.append_of_mem (mem_live.1 hmem).1
  obtain ⟨q, a', hrun, hway⟩ := (hsplit ▸ h).yields_realloc hlive size
  rw [← hsplit] at hway
  refine ⟨q, a', hrun, ?_⟩
  cases hway with
  | @inPlace need _ bs' b' hsize hround hresized hconsistent hevolves hzero =>
    have hne : b.payload x ≠ null := b.block.payload_ne_null x
    refine ⟨fun hnull => absurd hnull hne, fun _ => ⟨headers null bs', ?_⟩,
      fun hzero => absurd hzero hsize, fun _ _ => rfl⟩
    exact h.carried_inPlace hmem hsize hround hresized hconsistent hevolves
  | @moved need _ l r b' hsize hround hnot hallocated hconsistent hevolves hcopied hzero =>
    have hne : b'.payload x ≠ null := b'.payload_ne_null x
    refine ⟨fun hnull => absurd hnull hne, fun _ => ⟨headers null (released x l b.block r), ?_⟩,
      fun hzero => absurd hzero hsize, fun _ hfits => ?_⟩
    · exact h.carried_moved hmem hsize hround hallocated hconsistent hevolves hcopied
    · obtain ⟨bs', brk', c, hresized⟩ := h.exists_resized hmem hfits
      rw [Heap.eq_wholeCells hround] at hnot
      exact absurd hresized (hnot bs' brk' c)
  | refused hnone =>
    refine ⟨fun _ => rfl, fun hne => absurd rfl hne, fun _ => rfl, fun hsize hfits => ?_⟩
    obtain ⟨bs', brk', c, hresized⟩ := h.exists_resized hmem hfits
    have hround := h.roundSize?_eq_some (mem_live.1 hmem).1 hfits
    exact absurd hresized ((hnone _ hsize hround).1 bs' brk' c)

/-- Two allocations side by side, and a byte in the first of them. -/
def sideBySide : Arena .rv32 :=
  let s := ((Session.fresh 4096 8192 false (Memory.empty .rv32 true)).perform (.malloc 24)).perform
    (.malloc 8)
  { s.arena with memory := s.arena.memory.storeByte 4120 7 }

/-- The first allocation cannot grow where it is, and takes its byte along. -/
theorem realloc_carries_sideBySide :
    ∃ a' hs', realloc 4112 32 sideBySide = .ok 4176 a' ∧
      Carried 32 sideBySide [⟨4096, 24, false, 4136, 0⟩, ⟨4136, 8, false, 0, 4096⟩]
        ⟨4096, 24, false, 4136, 0⟩ 4176 a' hs' ∧ a'.memory.loadByte 4184 = 7 := by
  have hheap : sideBySide.heap = ⟨4096, 8192, 4160, 4096, 4136, 2, false⟩ := by decide +kernel
  have hw : Window .rv32 sideBySide.heap.base sideBySide.heap.limit := by
    rw [hheap]
    constructor <;> decide
  have hblocks : sideBySide.blocks =
      .ok [⟨4096, 24, false, 4136, 0⟩, ⟨4136, 8, false, 0, 4096⟩] := by
    decide +kernel
  have hwf : sideBySide.heap.WellFormed
      [⟨4096, 24, false, 4136, 0⟩, ⟨4136, 8, false, 0, 4096⟩] := by
    rw [hheap]
    constructor <;> decide
  obtain ⟨q, a', hrun, -, hcarried, -, -⟩ :=
    realloc_carries hw hblocks hwf List.mem_cons_self rfl 32
  have hq : q = 4176 := by
    have hanswer : (match realloc 4112 32 sideBySide with
        | .ok p _ => p
        | .error _ _ => null) = 4176 := by
      decide +kernel
    have hpayload : realloc 4112 32 sideBySide = .ok q a' := hrun
    rw [hpayload] at hanswer
    exact hanswer
  subst hq
  obtain ⟨hs', hcarried⟩ := hcarried (by decide)
  refine ⟨a', hs', hrun, hcarried, ?_⟩
  have hbyte := hcarried.contents 8 (by decide)
  exact hbyte.trans (by decide +kernel)

end Arena

end Hart
