/-
How an environment call ends.

`Service.Served pc p r` lists the ways in which a call of the guest `p` can end: with the
program, with an error because no service has the number, with the number of live
allocations, or with one request to the allocator, answered or refused.

* `Service.served_call` — every call ends in one of these ways;
* `Served.registers_eq`, `Served.arena_eq`, `Served.sameInstructions` — what is known of
  the guest after a call, however it ended.

Design notes: a call writes at most `a0`, and last of all, so a call that fails has
written no register.  It counts requests and no instructions
(`Statistics.SameInstructions`).
-/
import Hart.Machine.Service
import Hart.Proofs.Heap.Session

namespace Hart

variable {x : Xlen} {α β : Type}

/-- The state after a computation, whether it answers or fails. -/
def after {ε σ α : Type} : EStateM.Result ε σ α → σ
  | .ok _ s => s
  | .error _ s => s

namespace Statistics

/-- How many instructions of a class were counted. -/
def ofClass (s : Statistics) : InstructionClass → Nat
  | .alu => s.alu
  | .load => s.load
  | .store => s.store
  | .branch => s.branch
  | .jump => s.jump
  | .system => s.system

/-- As many instructions were counted, in total and of every class. -/
structure SameMix (s s' : Statistics) : Prop where
  cycles : s'.cycles = s.cycles
  ofClass : ∀ c, s'.ofClass c = s.ofClass c

/-- And as many branches were taken.  Requests are counted apart. -/
structure SameInstructions (s s' : Statistics) : Prop extends SameMix s s' where
  branchesTaken : s'.branchesTaken = s.branchesTaken

variable {s s' s'' : Statistics}

theorem SameMix.refl (s : Statistics) : s.SameMix s :=
  ⟨rfl, fun _ => rfl⟩

theorem SameMix.trans (h : s.SameMix s') (h' : s'.SameMix s'') : s.SameMix s'' :=
  ⟨h'.cycles.trans h.cycles, fun c => (h'.ofClass c).trans (h.ofClass c)⟩

theorem SameMix.classes_eq (h : s.SameMix s') : s'.classes = s.classes := by
  have halu : s'.alu = s.alu := h.ofClass .alu
  have hload : s'.load = s.load := h.ofClass .load
  have hstore : s'.store = s.store := h.ofClass .store
  have hbranch : s'.branch = s.branch := h.ofClass .branch
  have hjump : s'.jump = s.jump := h.ofClass .jump
  have hsystem : s'.system = s.system := h.ofClass .system
  rw [classes, classes, halu, hload, hstore, hbranch, hjump, hsystem]

theorem SameInstructions.refl (s : Statistics) : s.SameInstructions s :=
  ⟨.refl s, rfl⟩

theorem SameInstructions.trans (h : s.SameInstructions s') (h' : s'.SameInstructions s'') :
    s.SameInstructions s'' :=
  ⟨h.toSameMix.trans h'.toSameMix, h'.branchesTaken.trans h.branchesTaken⟩

/-- Counting requests counts no instructions. -/
theorem sameInstructions_requests (s : Statistics)
    (malloc calloc realloc free failed peakActive : Nat) :
    s.SameInstructions { s with malloc, calloc, realloc, free, failed, peakActive } :=
  ⟨⟨rfl, fun c => by cases c <;> rfl⟩, rfl⟩

end Statistics

/-! ### The steps of a call, followed by the rest -/

namespace GuestM

theorem argument_bind (r : Register) (g : Nat → GuestM x β) (p : Guest x) :
    (argument r >>= g) p = g (p.registers.read r).toNat p :=
  rfl

theorem count_bind (f : Statistics → Statistics) (g : Unit → GuestM x β) (p : Guest x) :
    (count f >>= g) p = g () { p with statistics := f p.statistics } :=
  rfl

theorem request_bind (r : AllocM x α) (g : α → GuestM x β) (p : Guest x) :
    (request r >>= g) p = match r p.arena with
      | .ok v a => g v { p with arena := a }
      | .error e a => .error (.heap e) { p with arena := a } := by
  show EStateM.bind (request r) g p = _
  rw [EStateM.bind, request]
  cases r p.arena <;> rfl

end GuestM

namespace Service

open GuestM

/-- The ways in which a call of the guest `p` at `pc` can end. -/
inductive Served (pc : Word) (p : Guest x) :
    EStateM.Result RunError (Guest x) Outcome → Prop
  /-- The program ends. -/
  | exit (code : Int) : Served pc p (.ok (.exit code) p)
  /-- No service has the number. -/
  | unknown (number : Nat) : Served pc p (.error (.unknownCall pc.toNat number) p)
  /-- The number of live allocations is told. -/
  | told : Served pc p (.ok .resume
      ⟨p.registers.write Register.a0 (BitVec.ofNat 64 p.arena.heap.active), p.arena,
        p.statistics⟩)
  /-- A request was answered. -/
  | answered {r : Request} {result : Nat} {a : Arena x} {s : Statistics}
      (hrun : r.run p.arena = .ok result a) (hs : p.statistics.SameInstructions s) :
      Served pc p (.ok .resume
        ⟨p.registers.write Register.a0 (BitVec.ofNat 64 result), a, s⟩)
  /-- An allocation was released, which has no answer. -/
  | released {pointer : Nat} {a : Arena x} {s : Statistics}
      (hrun : (Request.free pointer).run p.arena = .ok null a)
      (hs : p.statistics.SameInstructions s) :
      Served pc p (.ok .resume ⟨p.registers, a, s⟩)
  /-- A request was refused. -/
  | refused {r : Request} {e : HeapError} {a : Arena x} {s : Statistics}
      (hrun : r.run p.arena = .error e a) (hs : p.statistics.SameInstructions s) :
      Served pc p (.error (.heap e) ⟨p.registers, a, s⟩)

variable {pc : Word} {p : Guest x}

/-- An answer is counted and written, and never fails. -/
theorem answer_eq (result requested : Nat) (p : Guest x) :
    ∃ s, p.statistics.SameInstructions s ∧
      answer result requested p =
        .ok .resume ⟨p.registers.write Register.a0 (BitVec.ofNat 64 result), p.arena, s⟩ := by
  rw [answer]
  by_cases hnull : result = null ∧ requested ≠ 0
  · rw [if_pos hnull]
    exact ⟨_, p.statistics.sameInstructions_requests _ _ _ _ _ _, rfl⟩
  · rw [if_neg hnull]
    exact ⟨_, p.statistics.sameInstructions_requests _ _ _ _ _ _, rfl⟩

/-- A request whose result is the answer, after it was counted. -/
theorem served_request (r : Request) (requested : Nat) {s : Statistics}
    (hs : p.statistics.SameInstructions s) :
    Served pc p ((request r.run >>= fun result => answer result requested)
      { p with statistics := s }) := by
  rw [request_bind]
  dsimp only
  cases hrun : r.run p.arena with
  | ok result a =>
    obtain ⟨s', hs', hanswer⟩ := answer_eq result requested ⟨p.registers, a, s⟩
    dsimp only
    rw [hanswer]
    exact .answered hrun (hs.trans hs')
  | error e a => exact .refused hrun hs

theorem served_free (pointer : Nat) {s : Statistics} (hs : p.statistics.SameInstructions s) :
    Served pc p ((request (AllocM.free pointer) >>= fun _ => pure .resume)
      { p with statistics := s }) := by
  rw [request_bind]
  dsimp only
  have hrun := Request.run_free pointer p.arena
  cases hfree : AllocM.free pointer p.arena with
  | ok v a =>
    rw [hfree] at hrun
    exact .released hrun hs
  | error e a =>
    rw [hfree] at hrun
    exact .refused hrun hs

theorem served_sbrk (increment : Int) :
    Served pc p ((request (AllocM.sbrk increment) >>= fun result =>
      GuestM.writeRegister Register.a0 (BitVec.ofNat 64 result) >>= fun _ => pure .resume) p) := by
  rw [request_bind]
  cases hrun : AllocM.sbrk increment p.arena with
  | ok result a => exact .answered (r := .sbrk increment) hrun (.refl _)
  | error e a => exact .refused (r := .sbrk increment) hrun (.refl _)

theorem served_allocator (pc : Word) (p : Guest x) : Served pc p (allocator pc p) := by
  rw [allocator, argument_bind, argument_bind, argument_bind]
  generalize (p.registers.read Register.a6).toNat = operation
  generalize (p.registers.read Register.a1).toNat = first
  generalize (p.registers.read Register.a2).toNat = second
  split
  · exact served_request (.malloc first) first (p.statistics.sameInstructions_requests _ _ _ _ _ _)
  · exact served_request (.calloc first) first (p.statistics.sameInstructions_requests _ _ _ _ _ _)
  · exact served_request (.realloc first second) second
      (p.statistics.sameInstructions_requests _ _ _ _ _ _)
  · exact served_free first (p.statistics.sameInstructions_requests _ _ _ _ _ _)
  · exact .told
  · exact .unknown _

/-- Every call ends in one of the ways of `Served`. -/
theorem served_call (pc : Word) (p : Guest x) : Served pc p (call pc p) := by
  rw [call, argument_bind]
  generalize (p.registers.read Register.a0).toNat = service
  split
  · exact served_sbrk _
  · exact .exit 0
  · exact .exit _
  · exact served_allocator pc p
  · exact .unknown _

variable {result : EStateM.Result RunError (Guest x) Outcome}

/-- A call writes at most `a0`. -/
theorem Served.registers_eq (h : Served pc p result) :
    (after result).registers = p.registers ∨
      ∃ v, (after result).registers = p.registers.write Register.a0 v := by
  cases h with
  | exit | unknown | released | refused => exact .inl rfl
  | told | answered => exact .inr ⟨_, rfl⟩

/-- A call makes at most one request. -/
theorem Served.arena_eq (h : Served pc p result) :
    (after result).arena = p.arena ∨
      ∃ r : Request, (after result).arena = Reply.arena (r.run p.arena) := by
  cases h with
  | exit | unknown | told => exact .inl rfl
  | answered hrun => exact .inr ⟨_, by rw [hrun]; rfl⟩
  | released hrun => exact .inr ⟨_, by rw [hrun]; rfl⟩
  | refused hrun => exact .inr ⟨_, by rw [hrun]; rfl⟩

/-- A call counts no instruction. -/
theorem Served.sameInstructions (h : Served pc p result) :
    p.statistics.SameInstructions (after result).statistics := by
  cases h with
  | exit | unknown | told => exact .refl _
  | answered _ hs | released _ hs | refused _ hs => exact hs

end Service

end Hart
