/-
Programs that leave the headers of their heap to the allocator.

A machine is `Tidy c p` if it came about from the program `p` under the configuration `c` by
steps and calls of a host (`TidyCall`) none of which writes to the header of a block, unless
it is the allocator that does so, in an environment call or for the host.  What else is
written, and where, is up to the program: payloads, free blocks and space that nobody has.

* `heap_execute` — only an environment call changes the record of the heap;
* `arena_of_ecall` — and it does so by at most one request;
* `Tidy.consistent` — in a tidy machine the blocks of the heap are in order.

Design notes: a store to a header is allowed if it writes what is there already, because
what counts is memory before and after a step.  A run is made of steps, and of a pause where
it ends in front of a breakpoint.
-/
import Hart.Proofs.Heap.Isolation
import Hart.Proofs.Heap.Pointers
import Hart.Proofs.Machine.Invariants

namespace Hart

variable {x : Xlen}

/-! ### Headers that are kept -/

/-- No byte in the header of a block differs between the two memories. -/
def Arena.KeepsHeaders (a a' : Arena x) : Prop :=
  ∀ hs, a.blocks = .ok hs → ∀ b ∈ hs, ∀ c ∈ b.headerBytes x,
    a'.memory.loadByte c = a.memory.loadByte c

/-- With the same record and the same headers, the blocks stay in order. -/
theorem Arena.Consistent.of_keepsHeaders {a a' : Arena x} {bs : List Block}
    (h : a.Consistent bs) (hheap : a'.heap = a.heap) (hkeeps : a.KeepsHeaders a') :
    a'.Consistent bs where
  window := hheap ▸ h.window
  brk_le := hheap ▸ h.brk_le
  placed := hheap ▸ h.placed
  head_eq := hheap ▸ h.head_eq
  tail_eq := hheap ▸ h.tail_eq
  linked := h.linked.congr fun b hb c hc => by
    obtain ⟨d, hd, rfl⟩ := exists_header_of_mem null hb
    exact hkeeps _ h.blocks_eq d hd c hc
  apart := h.apart
  active_eq := hheap ▸ h.active_eq

/-! ### Steps, as far as the heap is concerned -/

/-- Only an environment call changes the record of the heap. -/
theorem StepM.heap_execute {i : Instruction} (hcall : i ≠ .ecall) (pc : Word) (m : Machine x) :
    (after (execute pc i m)).heap = m.heap := by
  have hjump (rd : Register) (target : Word) : (after (jump pc rd target m)).heap = m.heap := by
    rw [jump_eq]
    split <;> rfl
  cases i with
  | ecall => exact absurd rfl hcall
  | lui | auipc | opImm | op | fence | ebreak => rfl
  | jal rd offset => exact hjump rd _
  | jalr rd rs1 offset => exact hjump rd _
  | branch condition rs1 rs2 offset =>
    rw [execute_branch]
    dsimp only
    split
    · split <;> rfl
    · rfl
  | load width signed rd rs1 offset =>
    rw [execute_load]
    split <;> rfl
  | store width rs1 rs2 offset =>
    rw [execute_store]
    split <;> rfl

namespace Machine

variable {m m' : Machine x} {i : Instruction}

/-- Retiring an instruction, or failing in it, changes neither registers nor arena. -/
theorem after_of_faces (h : m.Faces i) :
    (after (step m)).registers =
        (after (StepM.execute m.pc i (m.withState .running))).registers ∧
      (after (step m)).arena = (after (StepM.execute m.pc i (m.withState .running))).arena := by
  rw [step_eq h]
  cases StepM.execute m.pc i (m.withState .running) with
  | ok next n => exact ⟨registers_retired n i next, arena_retired n i next⟩
  | error e n => cases e <;> exact ⟨rfl, rfl⟩

/-- So an environment call leaves what the service left. -/
theorem after_of_ecall (h : m.Faces .ecall) :
    (after (step m)).registers = (after (Service.call m.pc m.toGuest)).registers ∧
      (after (step m)).arena = (after (Service.call m.pc m.toGuest)).arena := by
  have hguest : (m.withState .running).toGuest = m.toGuest := rfl
  have hafter := after_of_faces h
  rw [StepM.execute_ecall, hguest] at hafter
  rw [hafter.1, hafter.2]
  cases Service.call m.pc m.toGuest with
  | ok outcome p => cases outcome <;> exact ⟨rfl, rfl⟩
  | error e p => exact ⟨rfl, rfl⟩

/-- That is the arena as it was, or after one request. -/
theorem arena_of_ecall (h : m.Faces .ecall) :
    (after (step m)).arena = m.arena ∨
      ∃ r : Request, (after (step m)).arena = Reply.arena (r.run m.arena) := by
  rw [(after_of_ecall h).2]
  exact (Service.served_call m.pc m.toGuest).arena_eq

/-- In front of anything but an environment call, a step keeps the record of the heap. -/
theorem heap_of_step (h : ¬ m.Faces .ecall) : (after (step m)).heap = m.heap := by
  cases m.outlook with
  | halted hhalted =>
    rw [step_of_halted hhalted]
    rfl
  | outside hlive hout =>
    rw [step_of_outside hlive hout]
    rfl
  | spent hlive htext hspent =>
    rw [step_of_spent hlive htext hspent]
    rfl
  | unread hlive htext hspent hload =>
    rw [step_of_unread hlive htext hspent hload]
    rfl
  | illegal hlive htext hspent hload hword =>
    rw [step_of_illegal hlive htext hspent hload hword]
    rfl
  | @instruction i hfaces =>
    have hcall : i ≠ .ecall := by
      rintro rfl
      exact h hfaces
    have hexecute := StepM.heap_execute hcall m.pc (m.withState .running)
    exact (congrArg Arena.heap (after_of_faces hfaces).2).trans hexecute

/-! ### Tidy machines -/

/-- A step, or a call of a host, that leaves the headers to the allocator. -/
inductive TidyCall : Machine x → Machine x → Prop
  /-- In an environment call it is the allocator that writes. -/
  | step (m : Machine x)
      (hkeeps : m.Faces .ecall ∨ m.arena.KeepsHeaders (after (step m)).arena) :
      TidyCall m (after (step m))
  /-- The end of a run in front of a breakpoint. -/
  | pause (m : Machine x) (hlive : m.state ≠ .halted) (hfaces : m.FacesBreakpoint) :
      TidyCall m (m.withState .atBreakpoint)
  | reset (m : Machine x) : TidyCall m m.reset
  | setBreakpoint (m : Machine x) (address : Nat) : TidyCall m (m.setBreakpoint address).2
  | clearBreakpoint (m : Machine x) (address : Nat) : TidyCall m (m.clearBreakpoint address).2
  | writeRegister (m : Machine x) (r : Register) (v : Word) : TidyCall m (m.writeRegister r v)
  | writeMemory (m : Machine x) (memory : Memory x)
      (hkeeps : m.arena.KeepsHeaders { m.arena with memory := memory }) :
      TidyCall m (m.modifyMemory fun _ => memory)
  | request (m : Machine x) (r : Request) :
      TidyCall m { m with arena := Reply.arena (r.run m.arena) }

/-- The machine came about from the program without a header being overwritten. -/
def Tidy (c : Config) (p : Program) (m : Machine c.general.xlen) : Prop :=
  ∃ m₀, boot c p = .ok m₀ ∧ Relation.ReflTransGen TidyCall m₀ m

/-- A call that leaves the headers to the allocator keeps the blocks in order. -/
theorem TidyCall.consistent {bs : List Block} (hcall : TidyCall m m')
    (h : m.arena.Consistent bs) : ∃ bs', m'.arena.Consistent bs' := by
  cases hcall with
  | step hkeeps =>
    by_cases hfaces : m.Faces .ecall
    · obtain heq | ⟨r, heq⟩ := arena_of_ecall hfaces
      · exact ⟨bs, heq ▸ h⟩
      · exact heq ▸ h.request r
    · exact ⟨bs, h.of_keepsHeaders (heap_of_step hfaces) (hkeeps.resolve_left hfaces)⟩
  | pause | setBreakpoint | clearBreakpoint | writeRegister => exact ⟨bs, h⟩
  | reset =>
    exact ⟨[], (Session.sound_fresh h.window m.heap.alwaysCalloc m.reset.memory).consistent⟩
  | writeMemory memory hkeeps => exact ⟨bs, h.of_keepsHeaders rfl hkeeps⟩
  | request r => exact h.request r

variable {c : Config} {p : Program}

/-- The blocks of a tidy machine are in order. -/
theorem Tidy.consistent {m : Machine c.general.xlen} (h : Tidy c p m) :
    ∃ bs, m.arena.Consistent bs := by
  obtain ⟨m₀, hboot, hcalls⟩ := h
  induction hcalls with
  | refl =>
    obtain ⟨hcheck, -, hheap, -, -⟩ := boot_eq_ok hboot
    have harena : m₀.arena = (Session.fresh c.memory.heapBase c.memory.heapLimit
        c.heap.alwaysCalloc m₀.memory).arena :=
      congrArg (Arena.mk · m₀.memory) hheap
    rw [harena]
    exact ⟨[], (Session.sound_fresh (Config.window_of_check hcheck) _ _).consistent⟩
  | tail _ hcall ih =>
    obtain ⟨bs, hconsistent⟩ := ih
    exact hcall.consistent hconsistent

end Machine

end Hart
