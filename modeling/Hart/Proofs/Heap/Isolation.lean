/-
Isolation of allocations.

`Session.Isolated s hs` says that the allocations a program holds are apart: from
each other, from every header, and from what was granted by moving the mark.
`Session.spared s hs r` are the addresses that the request `r` has no business
with: payloads of other allocations, granted addresses, and addresses outside the
window.

* `Session.Reachable.allocations_isolated` — in every run the allocations are isolated, and a
  request leaves the bytes that it has to spare as they are.
-/
import Hart.Proofs.Heap.WellFormed

namespace Hart

variable {x : Xlen}

/-- The addresses of the header itself. -/
def Header.headerBytes (x : Xlen) (b : Header) : Set Nat := Set.Ico b.address (b.payload x)

namespace Session

/-- The allocations of a session, with the headers of its heap. -/
structure Isolated (s : Session x) (hs : List Header) : Prop where
  held_iff : ∀ p, p ∈ s.held ↔ ∃ b ∈ hs, b.free = false ∧ b.payload x = p
  payloads_disjoint : hs.Pairwise fun b c => b.free = false → c.free = false →
    Disjoint (b.payloadBytes x) (c.payloadBytes x)
  headers_disjoint : ∀ b ∈ hs, b.free = false → ∀ c ∈ hs,
    Disjoint (b.payloadBytes x) (c.headerBytes x)
  granted_disjoint : ∀ b ∈ hs, b.free = false → Disjoint (b.payloadBytes x) s.granted
  inside : ∀ b ∈ hs, b.free = false →
    s.arena.heap.base + headerSize x ≤ b.payload x ∧ b.stop x ≤ s.arena.heap.brk

/-- The addresses whose bytes a request has to leave alone. -/
def spared (s : Session x) (hs : List Header) (r : Request) : Set Nat :=
  {c | ∃ b ∈ hs, b.free = false ∧ r.pointer? ≠ some (b.payload x) ∧ c ∈ b.payloadBytes x} ∪
    s.granted ∪ {c | c ∉ Set.Ico s.arena.heap.base s.arena.heap.limit}

variable {base limit : Nat} {s : Session x} {bs : List Block}

theorem Sound.isolated (h : s.Sound base limit bs) : s.Isolated (headers null bs) where
  held_iff p := (h.held_iff p).trans exists_live_payload_iff
  payloads_disjoint := by
    refine (pairwise_headers h.consistent.placed.sorted).imp fun {b c} hle _ _ => ?_
    refine Set.disjoint_left.2 fun d hb hc => ?_
    have hlow := (c.block.payloadBytes_subset_bytes x hc).1
    exact absurd hb.2 (Nat.not_lt.2 (hle.trans hlow))
  headers_disjoint b hb hlive c hc := by
    have hlive' : b.block ∈ live bs := mem_live.2 ⟨block_mem_of_mem_headers hb, hlive⟩
    refine Set.disjoint_left.2 fun d hd hin => ?_
    refine h.consistent.placed.not_mem_scratch hlive' hd (headerRegion_subset_scratch bs ?_)
    exact ⟨c.block, block_mem_of_mem_headers hc, hin⟩
  granted_disjoint b hb hlive := by
    refine Set.disjoint_left.2 fun d hd hin => ?_
    refine Set.disjoint_left.1 h.granted_disjoint hin ?_
    exact ⟨b.block, block_mem_of_mem_headers hb, b.block.payloadBytes_subset_bytes x hd⟩
  inside b hb _ := by
    obtain ⟨hlow, -, hhigh⟩ := h.consistent.placed.of_mem (block_mem_of_mem_headers hb)
    exact ⟨Nat.add_le_add_right hlow _, hhigh⟩

/-- A request touches none of the addresses that it has to spare. -/
theorem Sound.not_mem_touched (h : s.Sound base limit bs) {r : Request} {c : Nat}
    (hc : c ∈ s.spared (headers null bs) r) : c ∉ touched x bs s.arena.heap.brk limit r := by
  have hplaced := h.consistent.placed
  -- Everything that a request may write lies in a block or above the mark.
  have hbounds : c ∈ touched x bs s.arena.heap.brk limit r →
      c ∈ region x bs ∪ Set.Ico s.arena.heap.brk limit := by
    rintro ((hin | hin) | ⟨d, hd, -, hin⟩)
    · exact .inl (scratch_subset_region bs hin)
    · exact .inr hin
    · exact .inl ⟨d, (mem_live.1 hd).1, d.payloadBytes_subset_bytes x hin⟩
  rcases hc with (⟨b, hb, hlive, hother, hin⟩ | hgranted) | houtside
  · have hb' : b.block ∈ live bs := mem_live.2 ⟨block_mem_of_mem_headers hb, hlive⟩
    rintro (htouched | ⟨d, hd, hpointer, hin'⟩)
    · exact hplaced.not_mem_scratch_union hb' hin htouched
    · have hne : b.block ≠ d := by
        rintro rfl
        exact hother hpointer
      have hbytes := b.block.payloadBytes_subset_bytes x hin
      have hbytes' := d.payloadBytes_subset_bytes x hin'
      rcases hplaced.disjoint (mem_live.1 hb').1 (mem_live.1 hd).1 hne with hle | hle
      · exact absurd hbytes.2 (Nat.not_lt.2 (hle.trans hbytes'.1))
      · exact absurd hbytes'.2 (Nat.not_lt.2 (hle.trans hbytes.1))
  · intro htouched
    rcases hbounds htouched with hin | hin
    · exact Set.disjoint_left.1 h.granted_disjoint hgranted hin
    · exact absurd (h.granted_subset hgranted).2 (Nat.not_lt.2 hin.1)
  · intro htouched
    have hbrk := h.consistent.brk_le
    have hlimit := h.limit_eq
    rcases hbounds htouched with hin | hin
    · refine houtside ⟨hplaced.le_of_mem_region hin, ?_⟩
      exact (hplaced.lt_of_mem_region hin).trans_le hbrk
    · refine houtside ⟨hplaced.le.trans hin.1, ?_⟩
      rw [hlimit]
      exact hin.2

/-- In every run over a window the live allocations are isolated, and a request
changes no byte that it has to spare. -/
theorem Reachable.allocations_isolated (hw : Window x base limit) (h : Reachable base limit s) :
    s.arena.heap.base = base ∧ s.arena.heap.limit = limit ∧
      ∃ hs, s.arena.blocks = .ok hs ∧ s.Isolated hs ∧
        ∀ r : Request, ∀ c < x.space, c ∈ s.spared hs r →
          (s.perform r).arena.memory.loadByte c = s.arena.memory.loadByte c := by
  obtain ⟨bs, hsound⟩ := h.sound hw
  refine ⟨hsound.base_eq, hsound.limit_eq, headers null bs, hsound.consistent.blocks_eq,
    hsound.isolated, fun r c hc hspared => ?_⟩
  rw [arena_perform]
  exact (hsound.served r).loadByte_eq c hc (hsound.not_mem_touched hspared)

/-- The run of two allocations. -/
theorem isolated_malloc_malloc :
    ∃ hs, (((fresh 4096 8192 true (Memory.empty .rv64 false)).perform (.malloc 24)).perform
        (.malloc 9)).arena.blocks = .ok hs ∧
      (((fresh 4096 8192 true (Memory.empty .rv64 false)).perform (.malloc 24)).perform
        (.malloc 9)).Isolated hs := by
  have hw : Window .rv64 4096 8192 := ⟨by decide, by decide, by decide, by decide⟩
  have hfresh := reachable_fresh 4096 8192 true (Memory.empty .rv64 false)
  obtain ⟨-, -, hs, hblocks, hisolated, -⟩ :=
    Reachable.allocations_isolated hw ((hfresh.perform (.malloc 24)).perform (.malloc 9))
  exact ⟨hs, hblocks, hisolated⟩

end Session

end Hart
