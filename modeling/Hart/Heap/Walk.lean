/-
Walks along the block list.

The list of blocks is threaded through memory by the links in the headers.
Every header is checked when it is reached: it must lie below the mark, its
links must lead into the heap or nowhere, and its block must end at or below the
mark.

* `Arena.header` — the checked header at an address;
* `Arena.blocks` — the whole list;
* `Arena.firstFit?` — the first free block of a sufficient size;
* `Arena.allocated` — the live block with a given payload.

Design notes: links may be damaged and form a cycle, so a walk counts its steps
and gives up after more headers than the heap has room for.  The count is the
recursion's argument.
-/
import Hart.Heap.Basic

namespace Hart.Arena

variable {x : Xlen}

/-- The header at an address, if it is that of a block below the mark. -/
def header (a : Arena x) (address : Nat) : Except HeapError Header :=
  if a.heap.Contains address then
    match Header.load a.memory address with
    | .ok b =>
      if a.heap.LinkOk b.next ∧ a.heap.LinkOk b.prev ∧ b.stop x ≤ a.heap.brk then .ok b
      else .error (.corrupted address)
    | .error e => .error e
  else .error (.corrupted address)

/-- The blocks from an address on, in reverse after those in `seen`; after
`fuel` more links the list is too long. -/
def blocksFrom (a : Arena x) (fuel address : Nat) (seen : List Header) :
    Except HeapError (List Header) :=
  if address = null then .ok seen
  else
    match a.header address with
    | .error e => .error e
    | .ok b =>
      match fuel with
      | 0 => .error (.corrupted address)
      | fuel + 1 => a.blocksFrom fuel b.next (b :: seen)

/-- The blocks of the heap in the order of the list. -/
def blocks (a : Arena x) : Except HeapError (List Header) :=
  (a.blocksFrom a.heap.maxBlocks a.heap.head []).map List.reverse

/-- The first free block of at least `need` bytes from an address on. -/
def firstFitFrom (a : Arena x) (need fuel address : Nat) : Except HeapError (Option Header) :=
  if address = null then .ok none
  else
    match a.header address with
    | .error e => .error e
    | .ok b =>
      if b.free ∧ need ≤ b.size then .ok (some b)
      else
        match fuel with
        | 0 => .error (.corrupted address)
        | fuel + 1 => a.firstFitFrom need fuel b.next

/-- The first free block of at least `need` bytes. -/
def firstFit? (a : Arena x) (need : Nat) : Except HeapError (Option Header) :=
  a.firstFitFrom need a.heap.maxBlocks a.heap.head

/-- The live block with payload `pointer` from an address on; a block whose
payload starts above the pointer ends the search. -/
def allocatedFrom (a : Arena x) (pointer fuel address : Nat) : Except HeapError Header :=
  if address ≠ null ∧ address + headerSize x ≤ pointer then
    match a.header address with
    | .error e => .error e
    | .ok b =>
      if b.payload x = pointer then
        if b.free then .error (.invalidPointer pointer) else .ok b
      else
        match fuel with
        | 0 => .error (.corrupted address)
        | fuel + 1 => a.allocatedFrom pointer fuel b.next
  else .error (.invalidPointer pointer)

/-- The live block whose payload starts at `pointer`. -/
def allocated (a : Arena x) (pointer : Nat) : Except HeapError Header :=
  if a.heap.base + headerSize x ≤ pointer ∧ pointer < a.heap.brk then
    a.allocatedFrom pointer a.heap.maxBlocks a.heap.head
  else .error (.invalidPointer pointer)

end Hart.Arena
