/-
Numbers as sequences of bytes, least significant byte first.

* `littleEndian` — the number that a sequence spells;
* `toBytes` — the low bytes of a number.
-/

namespace Hart

/-- The number that a sequence of bytes spells, least significant byte first. -/
def littleEndian : List UInt8 → Nat
  | [] => 0
  | b :: rest => b.toNat + 256 * littleEndian rest

/-- The `count` low bytes of a number, least significant byte first. -/
def toBytes : Nat → Nat → List UInt8
  | 0, _ => []
  | count + 1, n => UInt8.ofNat n :: toBytes count (n / 256)

@[simp] theorem length_toBytes (count n : Nat) : (toBytes count n).length = count := by
  induction count generalizing n with
  | zero => rfl
  | succ count ih => simp [toBytes, ih]

@[simp] theorem littleEndian_replicate_zero (count : Nat) :
    littleEndian (List.replicate count 0) = 0 := by
  induction count with
  | zero => rfl
  | succ count ih => simp [List.replicate_succ, littleEndian, ih]

end Hart
