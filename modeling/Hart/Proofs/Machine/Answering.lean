/-
What the answers of environment calls tell a program.

An answer comes in `a0`, and a failure is told by an answer too: by null where a pointer is
asked for, and by a number of ones only where the mark is moved.

* `Service.call_of_asks` — a call that asks for a request makes it and answers with the
  result (`Service.Asks`, `Request.answerIn`);
* `Arena.Consistent.raises` — what the answer to moving the mark tells (`Arena.Raised`);
* `Machine.Tidy.ecall_answers` — what the answers tell a program that leaves the headers of
  its heap to the allocator.

Design notes: null cannot be mistaken for a pointer, because no heap starts there, but a mark
can be all ones, and it can lie just past the last address, where a register holds zero of
it.  This is told as it is, and is why `Raised` speaks of the mark that was there before.
-/
import Hart.Proofs.Machine.Tidy

namespace Hart

variable {x : Xlen}

/-! ### Requests and their answers -/

/-- The registers once a request was answered with a result; releasing has no answer. -/
def Request.answerIn (r : Request) (result : Nat) (f : RegisterFile x) : RegisterFile x :=
  match r with
  | .free _ => f
  | _ => f.write Register.a0 (BitVec.ofNat 64 result)

/-- What is read of an answer is the part of it that the width keeps. -/
theorem RegisterFile.toNat_read_answer (f : RegisterFile x) (result : Nat) :
    ((f.write Register.a0 (BitVec.ofNat 64 result)).read Register.a0).toNat = x.wrap result := by
  have hspace : x.space ∣ 2 ^ 64 := by cases x <;> decide
  rw [read_write, if_pos ⟨rfl, by decide⟩, Xlen.toNat_mask, BitVec.toNat_ofNat, Xlen.wrap,
    Xlen.wrap, Nat.mod_mod_of_dvd _ hspace]

namespace Service

/-- The registers of the guest ask for the request. -/
inductive Asks (p : Guest x) : Request → Prop
  | sbrk (hservice : (p.registers.read Register.a0).toNat = 9) :
      Asks p (.sbrk (p.registers.readSigned Register.a1))
  | malloc (hservice : (p.registers.read Register.a0).toNat = 0x3CC)
      (hoperation : (p.registers.read Register.a6).toNat = 1) :
      Asks p (.malloc (p.registers.read Register.a1).toNat)
  | calloc (hservice : (p.registers.read Register.a0).toNat = 0x3CC)
      (hoperation : (p.registers.read Register.a6).toNat = 2) :
      Asks p (.calloc (p.registers.read Register.a1).toNat)
  | realloc (hservice : (p.registers.read Register.a0).toNat = 0x3CC)
      (hoperation : (p.registers.read Register.a6).toNat = 3) :
      Asks p (.realloc (p.registers.read Register.a1).toNat (p.registers.read Register.a2).toNat)
  | free (hservice : (p.registers.read Register.a0).toNat = 0x3CC)
      (hoperation : (p.registers.read Register.a6).toNat = 4) :
      Asks p (.free (p.registers.read Register.a1).toNat)

variable {pc : Word} {p : Guest x} {r : Request}

/-- The call ends as the request does, with the result in `a0`. -/
def Carries (pc : Word) (p : Guest x) (r : Request) : Prop :=
  ∃ s, call pc p = match r.run p.arena with
    | .ok result a => .ok .resume ⟨r.answerIn result p.registers, a, s⟩
    | .error e a => .error (.heap e) ⟨p.registers, a, s⟩

/-- An allocation is made after it was counted. -/
theorem carries_answer (f : Statistics → Statistics) (requested : Nat)
    (hr : ∀ result, r.answerIn result p.registers =
      p.registers.write Register.a0 (BitVec.ofNat 64 result))
    (hcall : call pc p = (GuestM.count f >>= fun _ => GuestM.request r.run >>= fun result =>
      answer result requested) p) : Carries pc p r := by
  rw [Carries, hcall, GuestM.count_bind, GuestM.request_bind]
  dsimp only
  cases r.run p.arena with
  | error e a => exact ⟨_, rfl⟩
  | ok result a =>
    obtain ⟨s, -, hanswer⟩ := answer_eq result requested ⟨p.registers, a, f p.statistics⟩
    dsimp only
    rw [hr]
    exact ⟨s, hanswer⟩

theorem call_of_marker (pc : Word) (h : (p.registers.read Register.a0).toNat = 0x3CC) :
    call pc p = allocator pc p := by
  rw [call, GuestM.argument_bind, h]
  rfl

/-- A call whose registers ask for a request makes it. -/
theorem call_of_asks (pc : Word) (h : Asks p r) : Carries pc p r := by
  cases h with
  | sbrk hservice =>
    refine ⟨p.statistics, ?_⟩
    have hcall : call pc p = (GuestM.request (AllocM.sbrk (p.registers.readSigned Register.a1)) >>=
        fun result => GuestM.writeRegister Register.a0 (BitVec.ofNat 64 result) >>= fun _ =>
          pure Outcome.resume) p := by
      rw [call, GuestM.argument_bind, hservice]
      rfl
    rw [hcall, GuestM.request_bind, Request.run]
    cases AllocM.sbrk (p.registers.readSigned Register.a1) p.arena <;> rfl
  | malloc hservice hoperation =>
    refine carries_answer (fun s => { s with malloc := s.malloc + 1 })
      (p.registers.read Register.a1).toNat (fun _ => rfl) ?_
    rw [call_of_marker pc hservice, allocator, GuestM.argument_bind, hoperation]
    rfl
  | calloc hservice hoperation =>
    refine carries_answer (fun s => { s with calloc := s.calloc + 1 })
      (p.registers.read Register.a1).toNat (fun _ => rfl) ?_
    rw [call_of_marker pc hservice, allocator, GuestM.argument_bind, hoperation]
    rfl
  | realloc hservice hoperation =>
    refine carries_answer (fun s => { s with realloc := s.realloc + 1 })
      (p.registers.read Register.a2).toNat (fun _ => rfl) ?_
    rw [call_of_marker pc hservice, allocator, GuestM.argument_bind, hoperation]
    rfl
  | free hservice hoperation =>
    refine ⟨{ p.statistics with free := p.statistics.free + 1 }, ?_⟩
    have hcall : call pc p = (GuestM.count (fun s => { s with free := s.free + 1 }) >>= fun _ =>
        GuestM.request (AllocM.free (p.registers.read Register.a1).toNat) >>= fun _ =>
          pure Outcome.resume) p := by
      rw [call_of_marker pc hservice, allocator, GuestM.argument_bind, hoperation]
      rfl
    rw [hcall, GuestM.count_bind, GuestM.request_bind, Request.run_free]
    dsimp only
    cases AllocM.free (p.registers.read Register.a1).toNat p.arena <;> rfl

end Service

/-! ### Moving the mark -/

namespace Arena

/-- The mark may not be moved so: down, or past the limit. -/
def Refuses (a : Arena x) (increment : Int) : Prop :=
  increment < 0 ∨ a.heap.limit < a.heap.brk + increment.toNat

/-- The arena with its mark moved up. -/
def raise (a : Arena x) (increment : Int) : Arena x :=
  { a with heap := { a.heap with brk := a.heap.brk + increment.toNat } }

/-- What the answer to moving the mark tells.  All ones is the answer to a refusal, and to a
move from the mark that is all ones itself; a move is answered with the mark that was there,
unless that lies past the last address. -/
structure Raised (increment : Int) (a : Arena x) (answer : Nat) (a' : Arena x) : Prop where
  refused : a.Refuses increment → answer = x.maxAddress ∧ a' = a
  moved : ¬ a.Refuses increment → answer = x.wrap a.heap.brk ∧ a' = a.raise increment
  allOnes_iff : answer = x.maxAddress ↔ a.Refuses increment ∨ a.heap.brk = x.maxAddress
  mark_iff : ¬ a.Refuses increment → (answer = a.heap.brk ↔ a.heap.brk ≠ x.space)

variable {a : Arena x} {bs : List Block}

theorem not_refuses_iff {increment : Int} :
    ¬ a.Refuses increment ↔ 0 ≤ increment ∧ a.heap.brk + increment.toNat ≤ a.heap.limit := by
  rw [Refuses, not_or, Int.not_lt, Nat.not_lt]

/-- Moving the mark is always answered. -/
theorem Consistent.raises (h : a.Consistent bs) (increment : Int) :
    ∃ q a', AllocM.sbrk increment a = .ok q a' ∧ Raised increment a (x.wrap q) a' := by
  have hones : x.wrap x.maxAddress = x.maxAddress := by cases x <;> rfl
  have hspace : a.heap.brk ≤ x.space := h.brk_le.trans h.window.limit_le_space
  by_cases hrefuses : a.Refuses increment
  · have hrun : AllocM.sbrk increment a = .ok x.maxAddress a :=
      AllocM.sbrk_of_not_le fun hfits => not_refuses_iff.2 hfits hrefuses
    exact ⟨_, _, hrun, fun _ => ⟨hones, rfl⟩, fun hnot => absurd hrefuses hnot,
      iff_of_true hones (.inl hrefuses), fun hnot => absurd hrefuses hnot⟩
  · have hrun : AllocM.sbrk increment a = .ok a.heap.brk (a.raise increment) :=
      AllocM.sbrk_of_le (not_refuses_iff.1 hrefuses)
    refine ⟨_, _, hrun, fun hnot => absurd hnot hrefuses, fun _ => ⟨rfl, rfl⟩, ?_, fun _ => ?_⟩
    -- The mark is at most the size of the address space, and only there it is cut to zero.
    · rw [or_iff_right hrefuses]
      cases x <;> simp only [Xlen.wrap, Xlen.maxAddress, Xlen.space] at * <;> omega
    · cases x <;> simp only [Xlen.wrap, Xlen.space] at * <;> omega

end Arena

namespace Machine

variable {m m' : Machine x} {r : Request} {s : RunState}

/-- The number in the register where answers come. -/
def answer (m : Machine x) : Nat := (m.registers.read Register.a0).toNat

/-! ### Environment calls -/

/-- An environment call that goes on has written no register but `a0`. -/
theorem read_of_ecall (hfaces : m.Faces .ecall) (hstep : step m = .ok s m') {q : Register}
    (hq : q ≠ Register.a0) : m'.registers.read q = m.registers.read q := by
  have hafter := (after_of_ecall hfaces).1
  rw [hstep] at hafter
  have hregisters : m'.registers = (after (Service.call m.pc m.toGuest)).registers := hafter
  rw [hregisters]
  obtain heq | ⟨v, heq⟩ := (Service.served_call m.pc m.toGuest).registers_eq
  · rw [heq]
  · rw [heq, RegisterFile.read_write, if_neg fun hcond => hq hcond.1.symm]

/-- A request that is answered is answered in the registers. -/
theorem step_of_answered (hfaces : m.Faces .ecall) (hasks : Service.Asks m.toGuest r) {q : Nat}
    {a : Arena x} (hrun : r.run m.arena = .ok q a) :
    ∃ s m', step m = .ok s m' ∧ m'.registers = r.answerIn q m.registers ∧ m'.arena = a := by
  obtain ⟨statistics, hcall⟩ := Service.call_of_asks m.pc hasks
  rw [hrun] at hcall
  let p : Guest x := ⟨r.answerIn q m.registers, a, statistics⟩
  have hexecute : StepM.execute m.pc .ecall (m.withState .running) =
      .ok (x.mask (m.pc + 4)) { m.withState .running with toGuest := p } := by
    have hguest : (m.withState .running).toGuest = m.toGuest := rfl
    rw [StepM.execute_ecall, hguest, hcall]
  exact ⟨_, _, step_of_executed hfaces hexecute, registers_retired _ _ _, arena_retired _ _ _⟩

/-- A request that is refused fails the step. -/
theorem step_of_refused (hfaces : m.Faces .ecall) (hasks : Service.Asks m.toGuest r)
    {e : HeapError} {a : Arena x} (hrun : r.run m.arena = .error e a) :
    ∃ m', step m = .error (.heap e) m' := by
  obtain ⟨statistics, hcall⟩ := Service.call_of_asks m.pc hasks
  rw [hrun] at hcall
  have hexecute : StepM.execute m.pc .ecall (m.withState .running) =
      .error (.heap e) { m.withState .running with toGuest := ⟨m.registers, a, statistics⟩ } := by
    have hguest : (m.withState .running).toGuest = m.toGuest := rfl
    rw [StepM.execute_ecall, hguest, hcall]
  exact ⟨_, step_of_failed hfaces hexecute⟩

/-- So a serviced request was answered. -/
theorem registers_of_asks (hfaces : m.Faces .ecall) (hasks : Service.Asks m.toGuest r)
    (hstep : step m = .ok s m') : ∃ q, m'.registers = r.answerIn q m.registers := by
  cases hrun : r.run m.arena with
  | ok q a =>
    obtain ⟨s', m'', hstep', hregisters, -⟩ := step_of_answered hfaces hasks hrun
    rw [hstep] at hstep'
    cases hstep'
    exact ⟨q, hregisters⟩
  | error e a =>
    obtain ⟨m'', hstep'⟩ := step_of_refused hfaces hasks hrun
    rw [hstep] at hstep'
    cases hstep'

/-- A request that has an answer is told in `a0`. -/
theorem step_of_told (hfaces : m.Faces .ecall) (hasks : Service.Asks m.toGuest r)
    (hr : ∀ result, r.answerIn result m.registers =
      m.registers.write Register.a0 (BitVec.ofNat 64 result)) {q : Nat} {a : Arena x}
    (hrun : r.run m.arena = .ok q a) :
    ∃ s m', step m = .ok s m' ∧ m'.answer = x.wrap q ∧ m'.arena = a := by
  obtain ⟨s, m', hstep, hregisters, harena⟩ := step_of_answered hfaces hasks hrun
  refine ⟨s, m', hstep, ?_, harena⟩
  rw [answer, hregisters, hr, RegisterFile.toNat_read_answer]

variable {c : Config} {p : Program}

/-- What the answer to an environment call tells a program that leaves the headers of its
heap to the allocator: no other register has changed; moving the mark and asking for an
allocation, filled with zeros or not, are always answered, and so is resizing a live
allocation; and releasing one answers nothing. -/
theorem Tidy.ecall_answers {m : Machine c.general.xlen} (h : Tidy c p m)
    (hfaces : m.Faces .ecall) :
    (∀ s m', step m = .ok s m' → ∀ q, q ≠ Register.a0 →
      m'.registers.read q = m.registers.read q) ∧
    (∀ increment, Service.Asks m.toGuest (.sbrk increment) →
      ∃ s m', step m = .ok s m' ∧ Arena.Raised increment m.arena m'.answer m'.arena) ∧
    (∀ r size, r = .malloc size ∨ r = .calloc size → Service.Asks m.toGuest r →
      ∃ s m', step m = .ok s m' ∧ Arena.Obtained size m.arena m'.answer m'.arena) ∧
    (∃ hs, m.arena.blocks = .ok hs ∧ ∀ b ∈ hs, b.free = false → ∀ size,
      Service.Asks m.toGuest (.realloc (b.payload c.general.xlen) size) →
      ∃ s m', step m = .ok s m' ∧ Arena.Resettled size m.arena hs b m'.answer m'.arena) ∧
    (∀ pointer, Service.Asks m.toGuest (.free pointer) →
      (∀ s m', step m = .ok s m' → m'.registers = m.registers) ∧
      (pointer ∈ m.arena.pointers → ∃ s m', step m = .ok s m' ∧
        m'.arena.pointers = m.arena.pointers \ {pointer})) := by
  obtain ⟨bs, hconsistent⟩ := h.consistent
  refine ⟨fun s m' hstep q hq => read_of_ecall hfaces hstep hq, fun increment hasks => ?_,
    fun r size hr hasks => ?_, ⟨_, hconsistent.blocks_eq, fun b hb hlive size hasks => ?_⟩,
    fun pointer hasks => ⟨fun s m' hstep => ?_, fun hpointer => ?_⟩⟩
  · obtain ⟨q, a', hrun, hraised⟩ := hconsistent.raises increment
    obtain ⟨s, m', hstep, hanswer, rfl⟩ := step_of_told hfaces hasks (fun _ => rfl) hrun
    exact ⟨s, m', hstep, hanswer ▸ hraised⟩
  · obtain ⟨q, a', hrun, hobtained⟩ := hconsistent.obtains hr
    have hanswers (result : Nat) : r.answerIn result m.registers =
        m.registers.write Register.a0 (BitVec.ofNat 64 result) := by
      obtain rfl | rfl := hr <;> rfl
    obtain ⟨s, m', hstep, hanswer, rfl⟩ := step_of_told hfaces hasks hanswers hrun
    -- Null and pointers fit into a register, so the answer is the result as it is.
    rw [hconsistent.wrap_eq_self hrun fun hne => (hobtained.fresh hne).2 ▸ Set.mem_insert _ _]
      at hanswer
    exact ⟨s, m', hstep, hanswer ▸ hobtained⟩
  · obtain ⟨q, a', hrun, hresettled⟩ := hconsistent.resettles hb hlive size
    obtain ⟨s, m', hstep, hanswer, rfl⟩ := step_of_told hfaces hasks (fun _ => rfl) hrun
    have hpointer (hne : q ≠ null) : q ∈ m'.arena.pointers := by
      obtain ⟨hs', hcarried⟩ := hresettled.carried hne
      obtain ⟨b', hb', hfree, hpayload, -⟩ := hcarried.live
      exact ⟨hs', hcarried.blocks_eq, b', hb', hfree, hpayload⟩
    let r : Request := .realloc (b.payload c.general.xlen) size
    rw [hconsistent.wrap_eq_self (r := r) hrun hpointer] at hanswer
    exact ⟨s, m', hstep, hanswer ▸ hresettled⟩
  · obtain ⟨q, hregisters⟩ := registers_of_asks hfaces hasks hstep
    exact hregisters
  · obtain ⟨a', hrun, hpointers⟩ := hconsistent.releases hpointer
    obtain ⟨s, m', hstep, -, rfl⟩ := step_of_answered hfaces hasks hrun
    exact ⟨s, m', hstep, hpointers⟩

/-- A heap that reaches up to the end of the address space. -/
def topmost : Config := { memory := { heapBase := 0xFFFFF000, heapLimit := 0x100000000 } }

/-- Two environment calls. -/
def twoCalls : Program := { text := [0x00000073#32, 0x00000073#32] }

/-- The machine, with registers that ask for the mark to be moved. -/
def raising (m : Machine x) (increment : Nat) : Machine x :=
  (m.writeRegister Register.a0 9).writeRegister Register.a1 (BitVec.ofNat 64 increment)

/-- The machine has moved its mark, and asks where it is. -/
def raised (m : Machine x) (increment : Nat) : Machine x :=
  (after (step (m.raising increment))).raising 0

theorem tidy_raised {m : Machine c.general.xlen} (hboot : boot c p = .ok m) {increment : Nat}
    (hfaces : (m.raising increment).Faces .ecall) : Tidy c p (m.raised increment) :=
  ⟨m, hboot, .tail (.tail (.tail (.tail (.single (.writeRegister m _ _)) (.writeRegister _ _ _))
    (.step _ (.inl hfaces))) (.writeRegister _ _ _)) (.writeRegister _ _ _)⟩

/-- Where the mark is the last address, its answer is all ones, as that to a refusal is; and
where it lies past the last address, its answer is zero. -/
theorem ecall_answers_topmost : ∃ m : Machine .rv32, boot topmost twoCalls = .ok m ∧
    (∃ s m', step (m.raised 0xFFF) = .ok s m' ∧ ¬ (m.raised 0xFFF).arena.Refuses 0 ∧
      (m.raised 0xFFF).heap.brk = 0xFFFFFFFF ∧ m'.answer = 0xFFFFFFFF) ∧
    (∃ s m', step (m.raised 0x1000) = .ok s m' ∧ ¬ (m.raised 0x1000).arena.Refuses 0 ∧
      (m.raised 0x1000).heap.brk = 0x100000000 ∧ m'.answer = 0) := by
  obtain ⟨m, hm⟩ : ∃ m : Machine .rv32, boot topmost twoCalls = .ok m := ⟨_, rfl⟩
  have hmoved (increment mark : Nat)
      (hparts : ((boot topmost twoCalls).toOption.map fun m =>
        decide ((m.raising increment).Faces .ecall ∧ (m.raised increment).Faces .ecall ∧
          (m.raised increment).answer = 9 ∧
          (m.raised increment).registers.readSigned Register.a1 = 0 ∧
          (m.raised increment).heap.brk = mark ∧
          mark ≤ (m.raised increment).heap.limit)) = some true) :
      ∃ s m', step (m.raised increment) = .ok s m' ∧ ¬ (m.raised increment).arena.Refuses 0 ∧
        (m.raised increment).heap.brk = mark ∧ m'.answer = Xlen.rv32.wrap mark := by
    rw [hm] at hparts
    obtain ⟨hfirst, hfaces, hservice, hincrement, hbrk, hlimit⟩ :=
      of_decide_eq_true (Option.some.inj hparts)
    have hasks := Service.Asks.sbrk hservice
    rw [hincrement] at hasks
    obtain ⟨-, hraises, -⟩ := Tidy.ecall_answers (tidy_raised (c := topmost) hm hfirst) hfaces
    obtain ⟨s, m', hstep, htold⟩ := hraises 0 hasks
    have hgranted : ¬ (m.raised increment).arena.Refuses 0 := by
      refine Arena.not_refuses_iff.2 ⟨Int.le_refl 0, ?_⟩
      exact hbrk.trans_le hlimit
    refine ⟨s, m', hstep, hgranted, hbrk, (htold.moved hgranted).1.trans ?_⟩
    exact congrArg Xlen.rv32.wrap hbrk
  exact ⟨m, hm, hmoved 0xFFF 0xFFFFFFFF (by decide +kernel),
    hmoved 0x1000 0x100000000 (by decide +kernel)⟩

end Machine

end Hart
