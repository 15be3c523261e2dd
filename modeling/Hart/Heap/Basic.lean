/-
The heap and its arena.

`Heap x` is what the allocator keeps outside memory: the window `[base, limit)`,
the high-water mark `brk` below which blocks lie, the two ends of the block list
and the number of live allocations.  An `Arena` is a heap with the memory that
its headers lie in, and `AllocM` runs requests on it:

* `AllocM.storeHeader`, `AllocM.setNext`, `AllocM.setPrev` — edits of headers;
* `AllocM.sbrk` — the mark moved up without a block.

Design notes: a request that fails keeps what it already wrote, as a failing
program would find it, so errors carry the arena along.  Sums and differences
that damaged headers could drive out of 64 bits are checked.
-/
import Hart.Heap.Header
import Hart.Memory.Bulk

namespace Hart

/-- The allocator's own record of a heap. -/
structure Heap (x : Xlen) where
  /-- The first address of the window. -/
  base : Nat
  /-- One past the last address of the window. -/
  limit : Nat
  /-- The high-water mark. -/
  brk : Nat
  /-- The first header, or null. -/
  head : Nat
  /-- The last header, or null. -/
  tail : Nat
  active : Nat
  /-- Every allocation is filled with zeros. -/
  alwaysCalloc : Bool
  deriving DecidableEq, Repr

namespace Heap

variable {x : Xlen}

def empty (x : Xlen) (base limit : Nat) (alwaysCalloc : Bool) : Heap x where
  base := base
  limit := limit
  brk := base
  head := null
  tail := null
  active := 0
  alwaysCalloc := alwaysCalloc

instance : Inhabited (Heap x) := ⟨empty x 0 0 false⟩

def reset (h : Heap x) : Heap x :=
  { h with brk := h.base, head := null, tail := null, active := 0 }

/-- The address lies between the base and the mark. -/
def Contains (h : Heap x) (address : Nat) : Prop :=
  h.base ≤ address ∧ address < h.brk

instance (h : Heap x) (address : Nat) : Decidable (h.Contains address) :=
  inferInstanceAs (Decidable (_ ∧ _))

/-- A link is null or leads into the heap. -/
def LinkOk (h : Heap x) (link : Nat) : Prop :=
  link = null ∨ h.Contains link

instance (h : Heap x) (link : Nat) : Decidable (h.LinkOk link) :=
  inferInstanceAs (Decidable (_ ∨ _))

/-- No list of blocks below the mark is longer. -/
def maxBlocks (h : Heap x) : Nat :=
  (h.brk - h.base) / headerSize x + 1

/-- A request rounded up to whole cells, unless the window cannot hold it. -/
def roundSize? (h : Heap x) (size : Nat) : Option Nat :=
  (Address.alignUp? size x.bytes).filter (· ≤ h.limit - h.base)

end Heap

/-- A heap together with the memory that holds its headers. -/
structure Arena (x : Xlen) where
  heap : Heap x
  memory : Memory x
  deriving Inhabited

/-- Requests on an arena; a failed one keeps its partial effects. -/
abbrev AllocM (x : Xlen) := EStateM HeapError (Arena x)

namespace AllocM

variable {x : Xlen} {α : Type}

/-- A computation that only looks at the arena. -/
def inspect (f : Arena x → Except HeapError α) : AllocM x α := fun a =>
  match f a with
  | .ok v => .ok v a
  | .error e => .error e a

/-- A computation that does not look at the arena. -/
def ofExcept (v : Except HeapError α) : AllocM x α :=
  inspect fun _ => v

def heap : AllocM x (Heap x) :=
  inspect fun a => .ok a.heap

def modifyHeap (f : Heap x → Heap x) : AllocM x Unit :=
  modify fun a => { a with heap := f a.heap }

def modifyMemory (f : Memory x → Memory x) : AllocM x Unit :=
  modify fun a => { a with memory := f a.memory }

/-- Sets a register-sized cell of memory. -/
def storeCell (address value : Nat) : AllocM x Unit := fun a =>
  match a.memory.storeCell address value with
  | .ok m => .ok () { a with memory := m }
  | .error e => .error (.memory e) a

def storeHeader (b : Header) : AllocM x Unit := do
  storeCell b.address b.size
  storeCell (b.address + x.bytes) b.state
  storeCell (b.address + 2 * x.bytes) b.next
  storeCell (b.address + 3 * x.bytes) b.prev

/-- Sets the link of the header at an address to the next one. -/
def setNext (address next : Nat) : AllocM x Unit :=
  storeCell (address + 2 * x.bytes) next

/-- Sets the link of the header at an address to the previous one. -/
def setPrev (address prev : Nat) : AllocM x Unit :=
  storeCell (address + 3 * x.bytes) prev

/-- Moves the mark up by `increment` bytes and answers with the old mark; a
negative increment or one past the limit is refused with the largest address. -/
def sbrk (increment : Int) : AllocM x Nat := do
  let h ← heap
  let stop := h.brk + increment.toNat
  if 0 ≤ increment ∧ stop ≤ h.limit then
    modifyHeap fun h => { h with brk := stop }
    return h.brk
  else return x.maxAddress

end AllocM

end Hart
