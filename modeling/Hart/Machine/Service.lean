/-
Environment calls.

A program asks for a service by its number in `a0`:

* 9 — moves the heap's mark up by `a1` and answers with the old one;
* 10 — ends the program with code 0;
* 17 — ends the program with the code in `a1`;
* 0x3CC — makes the allocator request that `a6` selects: 1 `malloc`, 2 `calloc`,
  3 `realloc`, 4 `free`, 5 the number of live allocations.

`Service.call` carries out the call.  Answers come in `a0`; `free` has none.

Design notes: a request is counted before it is made, so that failing ones count
too.
-/
import Hart.Machine.Guest

namespace Hart.Service

variable {x : Xlen}

/-- What follows a call. -/
inductive Outcome where
  | resume
  /-- The program ends with a code. -/
  | exit (code : Int)
  deriving DecidableEq, Repr

/-- Gives the result of an allocation request of `requested` bytes. -/
def answer (result requested : Nat) : GuestM x Outcome := do
  if result = null ∧ requested ≠ 0 then
    GuestM.count fun s => { s with failed := s.failed + 1 }
  let active := (← get).arena.heap.active
  GuestM.count fun s => s.observeActive active
  GuestM.writeRegister Register.a0 (BitVec.ofNat 64 result)
  return .resume

/-- The allocator request that `a6` selects. -/
def allocator (pc : Word) : GuestM x Outcome := do
  let operation ← GuestM.argument Register.a6
  let first ← GuestM.argument Register.a1
  let second ← GuestM.argument Register.a2
  match operation with
  | 1 =>
    GuestM.count fun s => { s with malloc := s.malloc + 1 }
    answer (← GuestM.request (AllocM.malloc first)) first
  | 2 =>
    GuestM.count fun s => { s with calloc := s.calloc + 1 }
    answer (← GuestM.request (AllocM.calloc first)) first
  | 3 =>
    GuestM.count fun s => { s with realloc := s.realloc + 1 }
    answer (← GuestM.request (AllocM.realloc first second)) second
  | 4 =>
    GuestM.count fun s => { s with free := s.free + 1 }
    GuestM.request (AllocM.free first)
    return .resume
  | 5 =>
    let active := (← get).arena.heap.active
    GuestM.writeRegister Register.a0 (BitVec.ofNat 64 active)
    return .resume
  | _ => throw (.unknownCall pc.toNat operation)

/-- The environment call of the instruction at `pc`. -/
def call (pc : Word) : GuestM x Outcome := do
  let service ← GuestM.argument Register.a0
  match service with
  | 9 =>
    let increment := (← get).registers.readSigned Register.a1
    let result ← GuestM.request (AllocM.sbrk increment)
    GuestM.writeRegister Register.a0 (BitVec.ofNat 64 result)
    return .resume
  | 10 => return .exit 0
  | 17 => return .exit ((← get).registers.readSigned Register.a1)
  | 0x3CC => allocator pc
  | _ => throw (.unknownCall pc.toNat service)

end Hart.Service
