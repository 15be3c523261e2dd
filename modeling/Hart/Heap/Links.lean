/-
Edits of the block list.

* `AllocM.unlink` — takes a block out by linking its neighbours to each other;
* `AllocM.coalesceNext` — merges a free block with a free block right after it;
* `AllocM.coalescePrev` — merges a free block into a free block right before it;
* `AllocM.split` — cuts a block down and turns the rest into a free block.

Design notes: adjacent means that the one block ends where the header of the
other starts; blocks may have a gap between them.  A rest is cut off only when
it can hold more than a header, and it merges with what follows it, so that two
free blocks are never adjacent.
-/
import Hart.Heap.Walk

namespace Hart.AllocM

variable {x : Xlen}

def header (address : Nat) : AllocM x Header :=
  inspect fun a => a.header address

def unlink (b : Header) : AllocM x Unit := do
  if b.prev = null then modifyHeap fun h => { h with head := b.next }
  else setNext b.prev b.next
  if b.next = null then modifyHeap fun h => { h with tail := b.prev }
  else setPrev b.next b.prev

/-- Merges a block with the one after it when both are free and adjacent, and
answers with the header that remains. -/
def coalesceNext (b : Header) : AllocM x Header := do
  if b.free = false ∨ b.next = null then return b
  else
    let stop ← ofExcept (b.checkedStop x)
    if b.next ≠ stop then return b
    else
      let next ← header b.next
      if next.free = false then return b
      else
        unlink next
        let size ← ofExcept (checkedSum b.size (headerSize x + next.size))
        let merged := { b with size := size, next := next.next }
        storeHeader merged
        return merged

/-- Merges a block into the one before it when that one is free and adjacent. -/
def coalescePrev (b : Header) : AllocM x Unit := do
  if b.prev = null then return
  else
    let prev ← header b.prev
    let stop ← ofExcept (prev.checkedStop x)
    if prev.free = true ∧ stop = b.address then
      let _ ← coalesceNext prev
      return
    else return

/-- Writes a block cut down to `need` bytes, and a free block for the rest when
the rest exceeds a header.  Answers with the header as written. -/
def split (b : Header) (need : Nat) : AllocM x Header := do
  let spare ← ofExcept (checkedDifference b.size need)
  if spare ≤ headerSize x then
    storeHeader b
    return b
  else
    let payload ← ofExcept (checkedSum b.address (headerSize x))
    let address ← ofExcept (checkedSum payload need)
    let rest : Header :=
      { address, size := spare - headerSize x, free := true, next := b.next, prev := b.address }
    let kept := { b with size := need, next := rest.address }
    storeHeader rest
    storeHeader kept
    if rest.next = null then modifyHeap fun h => { h with tail := rest.address }
    else setPrev rest.next rest.address
    let _ ← coalesceNext rest
    return kept

end Hart.AllocM
