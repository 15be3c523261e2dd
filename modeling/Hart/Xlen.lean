/-
The two register widths of the machine.

A hart is either 32 or 64 bits wide.  Registers always sit in 64-bit slots, and
every component reads its values through the width:

* `Xlen.mask` — the value a slot keeps, cut to the width;
* `Xlen.signed` — the same value read as a signed integer;
* `Xlen.wrap` — an address reduced to the address space.

Intervals of addresses wrap at the top, so the place of an address in one is told
by `Xlen.distance`, how far it lies above the start.

Design notes: register values are bit vectors, because their arithmetic is
modular; addresses and sizes are natural numbers below `wordLimit`, because
everything said about them is about intervals.  `Xlen.toNat_mask` joins the two.
-/

namespace Hart

/-- A 64-bit slot: what a register holds, whatever the width of the machine. -/
abbrev Word := BitVec 64

/-- One past the largest 64-bit number. -/
def wordLimit : Nat := 18446744073709551616

/-- The width of the integer registers and of the address space. -/
inductive Xlen where
  /-- 32-bit registers and a 4 GiB address space. -/
  | rv32
  /-- 64-bit registers and addresses. -/
  | rv64
  deriving DecidableEq, Repr, Inhabited

namespace Xlen

def bits : Xlen → Nat
  | rv32 => 32
  | rv64 => 64

def bytes : Xlen → Nat
  | rv32 => 4
  | rv64 => 8

def space : Xlen → Nat
  | rv32 => 4294967296
  | rv64 => 18446744073709551616

def maxAddress (x : Xlen) : Nat := x.space - 1

def wrap (x : Xlen) (address : Nat) : Nat := address % x.space

/-- How far an address lies above another, going up and around. -/
def distance (x : Xlen) (start address : Nat) : Nat :=
  x.wrap (address + (x.space - x.wrap start))

/-- The low bits of a slot that the width keeps, zero-extended. -/
def mask : Xlen → Word → Word
  | rv32, v => v &&& 0xFFFFFFFF#64
  | rv64, v => v

/-- A slot read as a signed number of the width. -/
def signed : Xlen → Word → Int
  | rv32, v => (v.setWidth 32).toInt
  | rv64, v => v.toInt

/-- The bits of a shift amount that count. -/
def shiftMask : Xlen → Nat
  | rv32 => 0x1F
  | rv64 => 0x3F

theorem bits_eq (x : Xlen) : x.bits = 8 * x.bytes := by
  cases x <;> rfl

theorem space_pos (x : Xlen) : 0 < x.space := by
  cases x <;> decide

theorem space_le_wordLimit (x : Xlen) : x.space ≤ wordLimit := by
  cases x <;> decide

theorem wrap_lt (x : Xlen) (a : Nat) : x.wrap a < x.space :=
  Nat.mod_lt _ x.space_pos

theorem wrap_of_lt {x : Xlen} {a : Nat} (h : a < x.space) : x.wrap a = a :=
  Nat.mod_eq_of_lt h

@[simp] theorem wrap_wrap (x : Xlen) (a : Nat) : x.wrap (x.wrap a) = x.wrap a :=
  Nat.mod_mod _ _

theorem distance_lt (x : Xlen) (a c : Nat) : x.distance a c < x.space :=
  x.wrap_lt _

theorem distance_add_self {x : Xlen} {i : Nat} (a : Nat) (hi : i < x.space) :
    x.distance a (a + i) = i := by
  cases x <;> simp only [distance, wrap, space] at * <;> omega

/-- Going up by the distance leads to the address. -/
theorem wrap_add_distance (x : Xlen) (a c : Nat) : x.wrap (a + x.distance a c) = x.wrap c := by
  cases x <;> simp only [distance, wrap, space] <;> omega

theorem distance_eq_zero_iff (x : Xlen) (a c : Nat) :
    x.distance a c = 0 ↔ x.wrap a = x.wrap c := by
  cases x <;> simp only [distance, wrap, space] <;> omega

/-- From a start that lies `k` higher the distance is `k` less, going around where
that leads below zero. -/
theorem distance_add (x : Xlen) (a c : Nat) {k : Nat} (hk : k ≤ x.space) :
    x.distance (a + k) c =
      if k ≤ x.distance a c then x.distance a c - k else x.distance a c + x.space - k := by
  by_cases h : k ≤ x.distance a c
  · rw [if_pos h]
    cases x <;> simp only [distance, wrap, space] at * <;> omega
  · rw [if_neg h]
    cases x <;> simp only [distance, wrap, space] at * <;> omega

/-- Masking a slot and wrapping its number are the same reduction. -/
@[simp] theorem toNat_mask (x : Xlen) (v : Word) : (x.mask v).toNat = x.wrap v.toNat := by
  cases x
  · simp only [mask, wrap, space, BitVec.toNat_and]
    exact Nat.and_two_pow_sub_one_eq_mod v.toNat 32
  · exact (Nat.mod_eq_of_lt v.isLt).symm

@[simp] theorem mask_mask (x : Xlen) (v : Word) : x.mask (x.mask v) = x.mask v :=
  BitVec.eq_of_toNat_eq (by simp)

end Xlen

end Hart
