/-
The effect of an instruction, as the instruction set describes it.

`Isa.State x` is the state of a hart that works natively on words of the width `x`:
thirty-two registers, a program counter, and a byte for every address.

* `compute` — the result of an operation on words of any width;
* `State.exec?` — the state after an instruction, none where it traps;
* `State.step?` — the same for the instruction that the program counter points to.

Design notes: quotients, high halves of products, comparisons and arithmetic shifts
are those of the integers that the words stand for.  Accesses to memory never trap,
whether they are aligned or not, and a breakpoint goes on with the next instruction.
-/
import Mathlib.Algebra.Group.Int.Defs
import Mathlib.Algebra.Group.Nat.Defs
import Hart.Proofs.Isa.Listing

namespace Hart.Isa

/-! ### Words -/

/-- The bits of a word that a shift by it looks at. -/
def shiftAmount {w : Nat} (b : BitVec w) : Nat := (b.setWidth w.log2).toNat

/-- The result of an operation on words of width `w`. -/
def compute {w : Nat} (op : AluOp) (a b : BitVec w) : BitVec w :=
  match op with
  | .add => a + b
  | .sub => a - b
  | .sll => a <<< shiftAmount b
  | .slt => if a.toInt < b.toInt then 1 else 0
  | .sltu => if a.toNat < b.toNat then 1 else 0
  | .xor => a ^^^ b
  | .srl => .ofNat w (a.toNat / 2 ^ shiftAmount b)
  | .sra => .ofInt w (a.toInt / 2 ^ shiftAmount b)
  | .or => a ||| b
  | .and => a &&& b
  | .mul => a * b
  | .mulh => .ofInt w (a.toInt * b.toInt / 2 ^ w)
  | .mulhsu => .ofInt w (a.toInt * b.toNat / 2 ^ w)
  | .mulhu => .ofNat w (a.toNat * b.toNat / 2 ^ w)
  | .div => if b = 0 then -1 else .ofInt w (a.toInt.tdiv b.toInt)
  | .divu => if b = 0 then -1 else .ofNat w (a.toNat / b.toNat)
  | .rem => if b = 0 then a else .ofInt w (a.toInt.tmod b.toInt)
  | .remu => if b = 0 then a else .ofNat w (a.toNat % b.toNat)

/-- The result at the width of the registers; a W-suffix form works on the low halves
and sign-extends. -/
def result (x : Xlen) (op : AluOp) (word : Bool) (a b : BitVec x.bits) : BitVec x.bits :=
  if word then (compute op (a.setWidth 32) (b.setWidth 32)).signExtend x.bits else compute op a b

/-- Whether a branch is taken. -/
def taken {w : Nat} (a b : BitVec w) : BranchCondition → Bool
  | .eq => a = b
  | .ne => a ≠ b
  | .lt => a.toInt < b.toInt
  | .ge => b.toInt ≤ a.toInt
  | .ltu => a.toNat < b.toNat
  | .geu => b.toNat ≤ a.toNat

/-! ### States -/

/-- Registers, program counter and memory of a hart of width `x`. -/
@[ext] structure State (x : Xlen) where
  reg : Register → BitVec x.bits
  pc : BitVec x.bits
  mem : BitVec x.bits → BitVec 8

namespace State

variable {x : Xlen}

/-- Sets a register; register 0 does not change. -/
def set (s : State x) (r : Register) (v : BitVec x.bits) : State x :=
  { s with reg := fun q => if q = r ∧ r ≠ 0 then v else s.reg q }

/-- The little-endian number in the `n` bytes from an address on. -/
def read (s : State x) (a : BitVec x.bits) : (n : Nat) → BitVec (8 * n)
  | 0 => 0#0
  | n + 1 => s.read (a + 1) n ++ s.mem a

/-- Sets the `n` bytes from an address on to those of a word. -/
def write (s : State x) (a : BitVec x.bits) (n : Nat) (v : BitVec x.bits) : State x :=
  { s with
    mem := fun c =>
      let i := (c - a).toNat
      if i < n then v.extractLsb' (8 * i) 8 else s.mem c }

/-- Goes on at an address; jumping between instructions traps. -/
def goto? (s : State x) (target : BitVec x.bits) : Option (State x) :=
  if target.toNat % 4 = 0 then some { s with pc := target } else none

/-- Goes on with the next instruction. -/
def next (s : State x) : State x :=
  { s with pc := s.pc + 4 }

/-- The state after an instruction.  Environment calls are up to the environment. -/
def exec? (s : State x) : Instr → Option (State x)
  | .lui rd imm => some (s.set rd ((imm ++ 0#12).signExtend x.bits)).next
  | .auipc rd imm => some (s.set rd (s.pc + (imm ++ 0#12).signExtend x.bits)).next
  | .jal rd offset => (s.set rd (s.pc + 4)).goto? (s.pc + offset.signExtend x.bits)
  | .jalr rd rs1 offset =>
    (s.set rd (s.pc + 4)).goto? ((s.reg rs1 + offset.signExtend x.bits) &&& ~~~1)
  | .branch condition rs1 rs2 offset =>
    if taken (s.reg rs1) (s.reg rs2) condition then s.goto? (s.pc + offset.signExtend x.bits)
    else some s.next
  | .load width signed rd rs1 offset =>
    let v := s.read (s.reg rs1 + offset.signExtend x.bits) width.bytes
    some (s.set rd (if signed then v.signExtend x.bits else v.setWidth x.bits)).next
  | .store width rs1 rs2 offset =>
    some (s.write (s.reg rs1 + offset.signExtend x.bits) width.bytes (s.reg rs2)).next
  | .immediate op word rd rs1 imm =>
    some (s.set rd (result x op word (s.reg rs1) (imm.signExtend x.bits))).next
  | .shift op word rd rs1 amount =>
    some (s.set rd (result x op word (s.reg rs1) (amount.setWidth x.bits))).next
  | .register op word rd rs1 rs2 =>
    some (s.set rd (result x op word (s.reg rs1) (s.reg rs2))).next
  | .fence => some s.next
  | .ebreak => some s.next
  | .ecall => none

/-- The state after the instruction that the program counter points to. -/
def step? (s : State x) : Option (State x) := do
  s.exec? (← Instr.ofWord? x (s.read s.pc 4))

end State

end Hart.Isa
