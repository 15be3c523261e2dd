/-
Memory as a sparse map of pages.

A memory covers the whole address space of its width.  Only pages that were
written exist; every other byte reads as zero.  Its view is `loadByte`, a total
function from addresses to bytes, and addresses are reduced to the address
space.  The operations here touch one byte:

* `loadByte_storeByte` — a byte reads back, and no other byte changes;
* `loadByte_removeByte` — removing a byte sets it to zero and nothing else.

Design notes: the pages live in an extensional tree map, so two memories with
the same pages are equal.  Storing a byte creates its page even when the byte is
zero; removing one never does.
-/
import Std.Data.ExtTreeMap
import Hart.Address
import Hart.Memory.Page
import Hart.Text.Hex

namespace Hart

/-- Why a memory access was refused. -/
inductive MemoryError where
  /-- The address is not a multiple of the size of the access. -/
  | misaligned (address width : Nat)
  deriving DecidableEq, Repr

def MemoryError.message : MemoryError → String
  | misaligned address width =>
    "misaligned " ++ toString width ++ "-byte access at " ++ Text.hex address

/-- A byte-addressable store for addresses of width `x`. -/
structure Memory (x : Xlen) where
  /-- The pages that exist, by their number. -/
  pages : Std.ExtTreeMap Nat Page
  /-- Accesses of several bytes must be naturally aligned. -/
  aligned : Bool

namespace Memory

variable {x : Xlen}

def empty (x : Xlen) (aligned : Bool) : Memory x := ⟨∅, aligned⟩

instance : Inhabited (Memory x) := ⟨empty x false⟩

def pageOf (x : Xlen) (address : Nat) : Nat := x.wrap address / pageSize

/-- The position of an address inside its page. -/
def offsetOf (x : Xlen) (address : Nat) : Nat := x.wrap address % pageSize

def mappedPages (m : Memory x) : Nat := m.pages.size

def clear (m : Memory x) : Memory x := { m with pages := ∅ }

def loadByte (m : Memory x) (address : Nat) : UInt8 :=
  match m.pages[pageOf x address]? with
  | some page => page.byte (offsetOf x address)
  | none => 0

def storeByte (m : Memory x) (address : Nat) (b : UInt8) : Memory x :=
  { m with
    pages := m.pages.alter (pageOf x address) fun page =>
      some ((page.getD Page.blank).setByte (offsetOf x address) b) }

/-- Sets the byte at an address to zero, without creating a page. -/
def removeByte (m : Memory x) (address : Nat) : Memory x :=
  { m with
    pages := m.pages.alter (pageOf x address) fun page =>
      page.map fun p => p.setByte (offsetOf x address) 0 }

theorem offsetOf_lt (a : Nat) : offsetOf x a < pageSize :=
  Nat.mod_lt _ (by decide)

/-- A page number and an offset determine the reduced address. -/
theorem wrap_eq_wrap_iff {a b : Nat} :
    x.wrap a = x.wrap b ↔ pageOf x a = pageOf x b ∧ offsetOf x a = offsetOf x b := by
  unfold pageOf offsetOf pageSize
  omega

/-- As long as a run of addresses stays in a page, only the offset grows. -/
theorem pageOf_add {a i : Nat} (h : offsetOf x a + i < pageSize) :
    pageOf x (a + i) = pageOf x a := by
  cases x <;> simp only [pageOf, offsetOf, Xlen.wrap, Xlen.space, pageSize] at * <;> omega

theorem offsetOf_add {a i : Nat} (h : offsetOf x a + i < pageSize) :
    offsetOf x (a + i) = offsetOf x a + i := by
  cases x <;> simp only [offsetOf, Xlen.wrap, Xlen.space, pageSize] at * <;> omega

/-- An address lies in the part of a page from another address on exactly when
its distance from that address says so. -/
theorem distance_lt_iff {a c k : Nat} (h : offsetOf x a + k ≤ pageSize) :
    x.distance a c < k ↔
      pageOf x a = pageOf x c ∧ offsetOf x a ≤ offsetOf x c ∧ offsetOf x c < offsetOf x a + k := by
  cases x <;>
    simp only [Xlen.distance, pageOf, offsetOf, Xlen.wrap, Xlen.space, pageSize] at * <;> omega

theorem distance_eq {a c k : Nat} (h : offsetOf x a + k ≤ pageSize) (hc : x.distance a c < k) :
    x.distance a c = offsetOf x c - offsetOf x a := by
  cases x <;>
    simp only [Xlen.distance, offsetOf, Xlen.wrap, Xlen.space, pageSize] at * <;> omega

@[simp] theorem loadByte_empty (aligned : Bool) (a : Nat) :
    (empty x aligned).loadByte a = 0 := by
  simp [loadByte, empty]

@[simp] theorem loadByte_clear (m : Memory x) (a : Nat) : m.clear.loadByte a = 0 := by
  simp [loadByte, clear]

theorem loadByte_congr (m : Memory x) {a c : Nat} (h : x.wrap a = x.wrap c) :
    m.loadByte a = m.loadByte c := by
  obtain ⟨hpage, hoffset⟩ := wrap_eq_wrap_iff.1 h
  rw [loadByte, loadByte, hpage, hoffset]

/-- As long as a run of addresses stays in a page, its bytes are those of the page. -/
theorem loadByte_add (m : Memory x) {a i : Nat} (h : offsetOf x a + i < pageSize) :
    m.loadByte (a + i) =
      match m.pages[pageOf x a]? with
      | some page => page.byte (offsetOf x a + i)
      | none => 0 := by
  unfold loadByte
  rw [pageOf_add h, offsetOf_add h]

@[simp] theorem aligned_storeByte (m : Memory x) (a : Nat) (b : UInt8) :
    (m.storeByte a b).aligned = m.aligned := rfl

@[simp] theorem aligned_removeByte (m : Memory x) (a : Nat) :
    (m.removeByte a).aligned = m.aligned := rfl

theorem loadByte_storeByte (m : Memory x) (a c : Nat) (b : UInt8) :
    (m.storeByte a b).loadByte c = if x.wrap a = x.wrap c then b else m.loadByte c := by
  unfold loadByte storeByte
  rw [Std.ExtTreeMap.getElem?_alter]
  by_cases hp : pageOf x a = pageOf x c
  · have ho : x.wrap a = x.wrap c ↔ offsetOf x a = offsetOf x c := by
      rw [wrap_eq_wrap_iff]; simp [hp]
    cases h : m.pages[pageOf x c]? <;>
      simp [hp, h, Page.byte_setByte, ho, offsetOf_lt]
  · have hw : x.wrap a ≠ x.wrap c := fun h => hp (wrap_eq_wrap_iff.1 h).1
    simp [hp, hw]

theorem loadByte_removeByte (m : Memory x) (a c : Nat) :
    (m.removeByte a).loadByte c = if x.wrap a = x.wrap c then 0 else m.loadByte c := by
  unfold loadByte removeByte
  rw [Std.ExtTreeMap.getElem?_alter]
  by_cases hp : pageOf x a = pageOf x c
  · have ho : x.wrap a = x.wrap c ↔ offsetOf x a = offsetOf x c := by
      rw [wrap_eq_wrap_iff]; simp [hp]
    cases h : m.pages[pageOf x c]? <;>
      simp [hp, h, Page.byte_setByte, ho, offsetOf_lt]
  · have hw : x.wrap a ≠ x.wrap c := fun h => hp (wrap_eq_wrap_iff.1 h).1
    simp [hp, hw]

end Memory

end Hart
