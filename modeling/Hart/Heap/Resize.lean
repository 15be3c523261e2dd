/-
Releasing and resizing allocations.

* `AllocM.free` — makes an allocation a free block and merges it with its free
  neighbours;
* `AllocM.realloc` — changes the size of an allocation, in place where possible.

Design notes: an allocation shrinks in place, grows into a free block right
after it, or grows at the mark when it is the last block and reaches up to it.
Otherwise its contents move to a new allocation and the old one is freed.  When
nothing helps the answer is null and the allocation stays as it was.
-/
import Hart.Heap.Allocate

namespace Hart.AllocM

variable {x : Xlen}

/-- Releases the allocation at `pointer`; releasing null does nothing. -/
def free (pointer : Nat) : AllocM x Unit := do
  if pointer = null then return
  else
    let b ← inspect fun a => a.allocated pointer
    let freed := { b with free := true }
    storeHeader freed
    let active ← ofExcept (checkedDifference (← heap).active 1)
    modifyHeap fun h => { h with active := active }
    let merged ← coalesceNext freed
    coalescePrev merged

/-- Fills the bytes that an allocation gained with zeros, if the heap fills every
allocation. -/
def zeroGrown (pointer oldSize newSize : Nat) : AllocM x Unit := do
  if (← heap).alwaysCalloc ∧ oldSize < newSize then
    let start ← ofExcept (checkedSum pointer oldSize)
    modifyMemory fun m => m.zero start (newSize - oldSize)

/-- The free block right after `b`, if the two together hold `need` bytes, with
the size that they have together. -/
def absorbable? (b : Header) (need : Nat) : AllocM x (Option (Header × Nat)) := do
  let stop ← ofExcept (b.checkedStop x)
  if b.next = null ∨ b.next ≠ stop then return none
  else
    let next ← header b.next
    let combined ← ofExcept (checkedSum b.size (headerSize x + next.size))
    if next.free = true ∧ need ≤ combined then return some (next, combined) else return none

/-- Moves the allocation of `b` at `pointer` to a new one of `need` bytes. -/
def move (b : Header) (pointer need : Nat) : AllocM x Nat := do
  let target ← allocate need (← heap).alwaysCalloc
  if target = null then return null
  else
    modifyMemory fun m => m.copy target pointer (min b.size need)
    free pointer
    return target

/-- Grows the allocation of `b` at `pointer` to `need` bytes, more than it has. -/
def grow (b : Header) (pointer need : Nat) : AllocM x Nat := do
  match ← absorbable? b need with
  | some (next, combined) =>
    unlink next
    let _ ← split { b with size := combined, next := next.next } need
    zeroGrown pointer b.size need
    return pointer
  | none =>
    let h ← heap
    let stop ← ofExcept (b.checkedStop x)
    if b.address = h.tail ∧ stop = h.brk ∧ pointer + need ≤ h.limit then
      modifyHeap fun h => { h with brk := pointer + need }
      storeHeader { b with size := need }
      zeroGrown pointer b.size need
      return pointer
    else move b pointer need

/-- Changes the allocation at `pointer` to `size` bytes and answers with where it
now is; null if that is not possible. -/
def realloc (pointer size : Nat) : AllocM x Nat := do
  if pointer = null then malloc size
  else
    let b ← inspect fun a => a.allocated pointer
    let h ← heap
    if size = 0 then return null
    else
      match h.roundSize? size with
      | none => return null
      | some need =>
        if need ≤ b.size then
          let _ ← split b need
          return pointer
        else grow b pointer need

end Hart.AllocM
