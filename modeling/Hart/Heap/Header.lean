/-
Block headers.

A block of the heap is a header of four register-sized cells followed at once by
its payload.  The cells hold the size of the payload, the state (0 free, 1
allocated), the address of the next header and the address of the previous one,
where 0 stands for no header.

* `Header.load` — the header stored at an address;
* `HeapError` — what can go wrong in the allocator.

Design notes: headers live in the memory of the program, which may overwrite
them, so a header that was read is never trusted beyond what was checked.
-/
import Hart.Memory.Scalar

namespace Hart

/-- The address that stands for no block. -/
abbrev null : Nat := 0

/-- Why an allocator request failed.  Running out of space is not among them: it
is answered with the null address. -/
inductive HeapError where
  /-- Access to a header was refused. -/
  | memory (e : MemoryError)
  /-- The address is not the payload of a live allocation. -/
  | invalidPointer (address : Nat)
  /-- The header at the address is damaged. -/
  | corrupted (address : Nat)
  /-- Damaged headers led to a number outside 64 bits. -/
  | overflow
  deriving DecidableEq, Repr

def HeapError.message : HeapError → String
  | memory e => e.message
  | invalidPointer address => "invalid heap pointer " ++ Text.hex address
  | corrupted address => "corrupted heap metadata at " ++ Text.hex address
  | overflow => "arithmetic overflow in heap metadata"

/-- A sum that has to fit in 64 bits. -/
def checkedSum (a b : Nat) : Except HeapError Nat :=
  if a + b < wordLimit then .ok (a + b) else .error .overflow

/-- A difference that must not be negative. -/
def checkedDifference (a b : Nat) : Except HeapError Nat :=
  if b ≤ a then .ok (a - b) else .error .overflow

theorem checkedSum_of_lt {a b : Nat} (h : a + b < wordLimit) : checkedSum a b = .ok (a + b) :=
  if_pos h

theorem checkedDifference_of_le {a b : Nat} (h : b ≤ a) : checkedDifference a b = .ok (a - b) :=
  if_pos h

structure Header where
  address : Nat
  /-- The number of payload bytes. -/
  size : Nat
  /-- The block is not allocated. -/
  free : Bool
  /-- The address of the next header, or null. -/
  next : Nat
  /-- The address of the previous header, or null. -/
  prev : Nat
  deriving DecidableEq, Repr, Inhabited

def headerSize (x : Xlen) : Nat := 4 * x.bytes

namespace Header

variable {x : Xlen}

def payload (x : Xlen) (b : Header) : Nat := b.address + headerSize x

def stop (x : Xlen) (b : Header) : Nat := b.payload x + b.size

/-- The end of a block, which has to fit in 64 bits. -/
def checkedStop (x : Xlen) (b : Header) : Except HeapError Nat := do
  checkedSum (← checkedSum b.address (headerSize x)) b.size

/-- The cell that holds the state of a block. -/
def state (b : Header) : Nat := if b.free then 0 else 1

def load (m : Memory x) (address : Nat) : Except HeapError Header := do
  let cell (k : Nat) : Except HeapError Nat :=
    (m.loadCell (address + k * x.bytes)).mapError .memory
  let size ← cell 0
  let state ← cell 1
  let next ← cell 2
  let prev ← cell 3
  match state with
  | 0 => return { address, size, free := true, next, prev }
  | 1 => return { address, size, free := false, next, prev }
  | _ => throw (.corrupted address)

end Header

end Hart
