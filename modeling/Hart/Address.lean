/-
Arithmetic on byte addresses and sizes.

* `alignUp?` — a size rounded up to a power of two, unless that leaves 64 bits;
* `IsAligned` — natural alignment of an access;
* `laneMask` — the byte lane that an address selects in its 4-byte word.

Design notes: rounding clears the low bits of `value + align - 1`, which is the
least multiple above `value` when `align` is a power of two, the only case the
allocator uses.
-/
import Hart.Xlen

namespace Hart.Address

/-- `value` rounded up to a multiple of `align`, a power of two; nothing when
the sum does not fit in 64 bits. -/
def alignUp? (value align : Nat) : Option Nat :=
  let raised := value + (align - 1)
  if raised < wordLimit then some (raised - (raised &&& (align - 1))) else none

/-- An access of `size` bytes at `address` is naturally aligned; accesses of at
most one byte always are. -/
def IsAligned (address size : Nat) : Prop :=
  size ≤ 1 ∨ address &&& (size - 1) = 0

instance (address size : Nat) : Decidable (IsAligned address size) :=
  inferInstanceAs (Decidable (_ ∨ _))

/-- The 32-bit mask of the byte lane that `address` occupies in its word. -/
def laneMask (address : Nat) : BitVec 32 :=
  0xFF#32 <<< (address % 4 * 8)

end Hart.Address
