/-
Allocation.

A request takes the first free block that is large enough and cuts it down.
When there is none, it takes fresh space at the mark: a free block at the end of
the list that reaches up to the mark is grown, and otherwise a new block is
appended.

* `AllocM.malloc` and `AllocM.calloc` — the payload of a new allocation, or null.

Design notes: growing the last free block instead of appending after it keeps
free blocks from becoming adjacent.  Null is an answer and not an error; it
leaves heap and memory as they were.
-/
import Hart.Heap.Links

namespace Hart.AllocM

variable {x : Xlen}

/-- Counts a block as live, fills its payload with zeros if asked, and answers
with the payload. -/
def handOut (b : Header) (zeroed : Bool) : AllocM x Nat := do
  let payload ← ofExcept (checkedSum b.address (headerSize x))
  if zeroed then modifyMemory fun m => m.zero payload b.size
  let active ← ofExcept (checkedSum (← heap).active 1)
  modifyHeap fun h => { h with active := active }
  return payload

/-- Grows a free block that reaches up to the mark to `need` bytes and allocates
it, if the limit allows. -/
def growTail? (tail : Header) (need : Nat) : AllocM x (Option Header) := do
  let h ← heap
  let stop := tail.payload x + need
  if stop ≤ h.limit then
    modifyHeap fun h => { h with brk := stop }
    let grown := { tail with size := need, free := false }
    storeHeader grown
    return some grown
  else return none

/-- Appends an allocated block of `need` bytes at the mark, if the limit allows. -/
def append? (need : Nat) : AllocM x (Option Header) := do
  let h ← heap
  match Address.alignUp? h.brk x.bytes with
  | none => return none
  | some address =>
    let b : Header := { address, size := need, free := false, next := null, prev := h.tail }
    if b.stop x ≤ h.limit then
      storeHeader b
      if h.tail = null then modifyHeap fun h => { h with head := address }
      else setNext h.tail address
      modifyHeap fun h => { h with tail := address, brk := b.stop x }
      return some b
    else return none

/-- An allocated block of `need` bytes in fresh space. -/
def extend? (need : Nat) : AllocM x (Option Header) := do
  let h ← heap
  if h.tail = null then append? need
  else
    let tail ← header h.tail
    let stop ← ofExcept (tail.checkedStop x)
    if tail.free = true ∧ stop = h.brk then growTail? tail need else append? need

/-- Allocates `size` bytes, filled with zeros if asked; null for no bytes, too
many, or no space. -/
def allocate (size : Nat) (zeroed : Bool) : AllocM x Nat := do
  if size = 0 then return null
  else
    let h ← heap
    match h.roundSize? size with
    | none => return null
    | some need =>
      match ← inspect fun a => a.firstFit? need with
      | some b =>
        let taken ← split { b with free := false } need
        handOut taken zeroed
      | none =>
        match ← extend? need with
        | some b => handOut b zeroed
        | none => return null

def malloc (size : Nat) : AllocM x Nat := do
  allocate size (← heap).alwaysCalloc

def calloc (size : Nat) : AllocM x Nat :=
  allocate size true

end Hart.AllocM
