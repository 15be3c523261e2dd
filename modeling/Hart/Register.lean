/-
The integer registers.

A register is a 5-bit number.  `RegisterFile x` holds their values for a machine
of width `x`, with two rules:

* `read_zero` — register 0 reads as zero;
* `read_write` — any other register reads back what was last written, cut to
  the width.

Design notes: the slots are zero-extended, so a 32-bit machine keeps the upper
half of every slot clear; sign is a matter of reading (`readSigned`).
-/
import Hart.Text.Hex
import Hart.Xlen

namespace Hart

/-- The number of a register, from `x0` to `x31`. -/
abbrev Register := BitVec 5

namespace Register

/-- The hardwired zero, `x0`. -/
def zero : Register := 0
/-- The return address, `x1`. -/
def ra : Register := 1
/-- The stack pointer, `x2`. -/
def sp : Register := 2
/-- The global pointer, `x3`. -/
def gp : Register := 3
/-- The service number and result of an environment call, `x10`. -/
def a0 : Register := 10
/-- The first argument of an environment call, `x11`. -/
def a1 : Register := 11
/-- The second argument of an environment call, `x12`. -/
def a2 : Register := 12
/-- The allocator operation of an environment call, `x16`. -/
def a6 : Register := 16

/-- The calling convention's names of `x0` to `x31`. -/
def names : List String :=
  ["zero", "ra", "sp", "gp", "tp", "t0", "t1", "t2", "s0", "s1", "a0", "a1", "a2", "a3", "a4",
   "a5", "a6", "a7", "s2", "s3", "s4", "s5", "s6", "s7", "s8", "s9", "s10", "s11", "t3", "t4",
   "t5", "t6"]

/-- The name of the register with a number, `x??` when there is none. -/
def nameOf (index : Nat) : String :=
  names[index]?.getD "x??"

def name (r : Register) : String :=
  nameOf r.toNat

end Register

/-- The values of the 32 registers of a machine of width `x`. -/
structure RegisterFile (x : Xlen) where
  slots : Vector Word 32
  deriving DecidableEq

namespace RegisterFile

variable {x : Xlen}

def empty : RegisterFile x := ⟨Vector.replicate 32 0⟩

instance : Inhabited (RegisterFile x) := ⟨empty⟩

/-- The value of a register, zero-extended. -/
def read (f : RegisterFile x) (r : Register) : Word :=
  if r = Register.zero then 0 else f.slots[r.toNat]

/-- The value of a register as a signed number of the width. -/
def readSigned (f : RegisterFile x) (r : Register) : Int :=
  x.signed (f.read r)

/-- Sets a register to the low bits of `v`; register 0 does not change. -/
def write (f : RegisterFile x) (r : Register) (v : Word) : RegisterFile x :=
  if r = Register.zero then f else ⟨f.slots.set r.toNat (x.mask v)⟩

@[simp] theorem read_zero (f : RegisterFile x) : f.read Register.zero = 0 := by
  simp [read]

@[simp] theorem read_empty (r : Register) : (empty : RegisterFile x).read r = 0 := by
  simp [read, empty]

theorem read_write (f : RegisterFile x) (r s : Register) (v : Word) :
    (f.write r v).read s =
      if r = s ∧ s ≠ Register.zero then x.mask v else f.read s := by
  by_cases hr : r = Register.zero
  · by_cases hs : s = Register.zero <;> simp_all [write]
    intro h
    exact absurd h.symm hs
  · by_cases hs : s = Register.zero
    · simp [hs]
    · have hn : r.toNat = s.toNat ↔ r = s := BitVec.toNat_inj
      by_cases hrs : r = s <;> simp [write, read, hr, hs, hrs, hn]

/-- The registers in pairs, a pair to a line, each as its name and its value in
as many hexadecimal digits as the width has. -/
def dump (f : RegisterFile x) : String :=
  let entry (i : Nat) : String :=
    Text.padLeft 4 ' ' (Register.nameOf i) ++ "="
      ++ Text.hexPadded (2 * x.bytes) (f.read (BitVec.ofNat 5 i)).toNat
  String.join ((List.range 16).map fun i => entry (2 * i) ++ " " ++ entry (2 * i + 1) ++ "\n")

end RegisterFile

end Hart
