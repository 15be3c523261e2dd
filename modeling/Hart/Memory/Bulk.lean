/-
Reading, writing, clearing and copying ranges of memory.

A range is cut into slices that each lie in one page, and every operation works
slice by slice:

* `Memory.loadBytes` and `Memory.storeBytes` — a range as a list of bytes;
* `Memory.zero` — a range set to zero;
* `Memory.copy` — a range copied to another, which may overlap it.

Design notes: pages come and go only where a byte needs them.  Writing zeros
where no page exists creates none, and clearing a whole page drops it.  A copy
moves chunks of a page, from the end of the range when the destination starts
inside the source, so that no chunk overwrites what is still to be read.
-/
import Hart.Memory.Scalar

namespace Hart

/-- A run of bytes inside one page. -/
structure Slice where
  page : Nat
  offset : Nat
  count : Nat
  deriving DecidableEq, Repr

namespace Memory

variable {x : Xlen}

/-- The slices of the `length` bytes from an address on, which wrap at the top
of the address space. -/
def slices (x : Xlen) (address length : Nat) : List Slice :=
  if length = 0 then []
  else
    let count := min (pageSize - offsetOf x address) length
    ⟨pageOf x address, offsetOf x address, count⟩ :: slices x (address + count) (length - count)
termination_by length
decreasing_by
  have := offsetOf_lt (x := x) address
  omega

def loadSlice (m : Memory x) (s : Slice) : List UInt8 :=
  match m.pages[s.page]? with
  | some page => page.read s.offset s.count
  | none => List.replicate s.count 0

/-- Sets the bytes of a slice; zeros create no page. -/
def storeSlice (m : Memory x) (s : Slice) (bytes : List UInt8) : Memory x :=
  { m with
    pages := m.pages.alter s.page fun page =>
      match page with
      | some p => some (p.write s.offset bytes)
      | none => if bytes.all (· == 0) then none else some (Page.blank.write s.offset bytes) }

/-- Sets the bytes of a slice to zero; a whole page is dropped. -/
def zeroSlice (m : Memory x) (s : Slice) : Memory x :=
  { m with
    pages := m.pages.alter s.page fun page =>
      if s.count = pageSize then none
      else page.map fun p => p.write s.offset (List.replicate s.count 0) }

/-- Writes a list of bytes over successive slices. -/
def storeSlices (m : Memory x) : List Slice → List UInt8 → Memory x
  | [], _ => m
  | s :: rest, bytes => (m.storeSlice s (bytes.take s.count)).storeSlices rest (bytes.drop s.count)

def loadBytes (m : Memory x) (address length : Nat) : List UInt8 :=
  (slices x address length).flatMap m.loadSlice

def storeBytes (m : Memory x) (address : Nat) (bytes : List UInt8) : Memory x :=
  m.storeSlices (slices x address bytes.length) bytes

/-- Sets `length` bytes from an address on to zero. -/
def zero (m : Memory x) (address length : Nat) : Memory x :=
  (slices x address length).foldl zeroSlice m

/-- A copy of `length` bytes must start at the end. -/
def CopiesBackward (target source length : Nat) : Prop :=
  source < target ∧ target - source < length

instance (target source length : Nat) : Decidable (CopiesBackward target source length) :=
  inferInstanceAs (Decidable (_ ∧ _))

/-- Copies one chunk: the `k`-th page-sized piece of the range, counted from the
end of the range when the copy runs backward. -/
def copyChunk (target source length : Nat) (m : Memory x) (k : Nat) : Memory x :=
  let done := k * pageSize
  let count := min (length - done) pageSize
  let start := if CopiesBackward target source length then length - done - count else done
  m.storeBytes (target + start) (m.loadBytes (source + start) count)

/-- Copies `length` bytes to `target` from `source`. -/
def copy (m : Memory x) (target source length : Nat) : Memory x :=
  (List.range ((length + (pageSize - 1)) / pageSize)).foldl (copyChunk target source length) m

end Memory

end Hart
