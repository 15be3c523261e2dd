/-
What holds of a machine whenever its host looks at it.

A machine is in order if its program counter lies between instructions of its address space,
its registers hold words of its width, its heap keeps the window and the mark in it, and its
state says where it stands (`Machine.InOrder`).

* `Guest.Sound.served`, `Sound.executed` — what environment calls and instructions leave
  sound, whether they succeed or fail;
* `Sound.inOrder_retired` — retiring an instruction puts the machine back in order;
* `lasting_inOrder` — steps and the calls of the host keep a machine in order;
* `Driven.canonical` — a driven machine can be read as a hart of its width at any time;
* `driven_inOrder` — every driven machine is in order, and its program stays clear of its
  heap.

Design notes: while an instruction is executed the machine need not be in order, because its
program counter is moved last; what holds throughout is `Machine.Sound`.
-/
import Hart.Proofs.Heap.Containment
import Hart.Proofs.Image.Placement
import Hart.Proofs.Isa.Refinement
import Hart.Proofs.Machine.Failing
import Hart.Proofs.Machine.Hosting

namespace Hart

variable {x : Xlen}

theorem Xlen.mask_eq_self (x : Xlen) {v : Word} (h : v.toNat < x.space) : x.mask v = v :=
  BitVec.eq_of_toNat_eq (by rw [toNat_mask, wrap_of_lt h])

/-! ### Guests -/

/-- The registers hold words of the width, and zero in `x0`. -/
structure RegisterFile.Sound (f : RegisterFile x) : Prop where
  slot_zero : f.slots[0] = 0
  read_lt : ∀ r, (f.read r).toNat < x.space

theorem RegisterFile.sound_empty : (RegisterFile.empty : RegisterFile x).Sound where
  slot_zero := rfl
  read_lt r := by
    rw [read_empty]
    exact x.space_pos

theorem RegisterFile.Sound.write {f : RegisterFile x} (h : f.Sound) (q : Register) (v : Word) :
    (f.write q v).Sound where
  slot_zero := by
    rw [RegisterFile.write]
    by_cases hq : q = Register.zero
    · rw [if_pos hq]
      exact h.slot_zero
    · have hne : q.toNat ≠ 0 := fun hzero => hq (BitVec.eq_of_toNat_eq hzero)
      rw [if_neg hq, Vector.getElem_set_ne _ _ hne]
      exact h.slot_zero
  read_lt r := by
    rw [RegisterFile.read_write]
    by_cases hr : q = r ∧ r ≠ Register.zero
    · rw [if_pos hr]
      exact x.toNat_mask_lt v
    · rw [if_neg hr]
      exact h.read_lt r

theorem sound_initialRegisters (s : Setup) :
    (Machine.initialRegisters s : RegisterFile x).Sound := by
  rw [Machine.initialRegisters]
  split
  · exact ((RegisterFile.sound_empty.write _ _).write _ _).write _ _
  · exact (RegisterFile.sound_empty.write _ _).write _ _

/-- The heap spans its window, and its mark lies in it. -/
structure Arena.Spans (a : Arena x) (base limit : Nat) : Prop where
  inWindow : a.InWindow
  base_eq : a.heap.base = base
  limit_eq : a.heap.limit = limit

theorem Arena.Spans.request {a : Arena x} {base limit : Nat} (h : a.Spans base limit)
    (r : Request) : (Reply.arena (r.run a)).Spans base limit :=
  have hcontained := h.inWindow.contained_request r
  ⟨hcontained.inWindow, hcontained.base_eq.trans h.base_eq, hcontained.limit_eq.trans h.limit_eq⟩

/-- The heap keeps its window whatever is written to memory. -/
theorem Arena.Spans.withMemory {a : Arena x} {base limit : Nat} (h : a.Spans base limit)
    (memory : Memory x) : ({ a with memory := memory } : Arena x).Spans base limit :=
  ⟨⟨h.inWindow.window, h.inWindow.base_le, h.inWindow.brk_le⟩, h.base_eq, h.limit_eq⟩

/-- A heap whose mark is at the start of its window. -/
theorem Arena.spans_of_brk_eq {a : Arena x} (hw : Window x a.heap.base a.heap.limit)
    (hbrk : a.heap.brk = a.heap.base) : a.Spans a.heap.base a.heap.limit := by
  refine ⟨⟨hw, Nat.le_of_eq hbrk.symm, ?_⟩, rfl, rfl⟩
  rw [hbrk]
  exact (Nat.le_add_right _ _).trans hw.room

structure Guest.Sound (p : Guest x) (base limit : Nat) : Prop where
  registers : p.registers.Sound
  arena : p.arena.Spans base limit

/-- An environment call leaves the guest sound, even if it fails. -/
theorem Guest.Sound.served {pc : Word} {p : Guest x} {base limit : Nat}
    {r : EStateM.Result RunError (Guest x) Service.Outcome} (h : p.Sound base limit)
    (hserved : Service.Served pc p r) : (after r).Sound base limit where
  registers := by
    obtain heq | ⟨v, heq⟩ := hserved.registers_eq
    · rw [heq]
      exact h.registers
    · rw [heq]
      exact h.registers.write _ v
  arena := by
    obtain heq | ⟨q, heq⟩ := hserved.arena_eq
    · rw [heq]
      exact h.arena
    · rw [heq]
      exact h.arena.request q

namespace Machine

variable {s : Setup} {m m' n : Machine x}

/-! ### Machines -/

/-- What holds of a machine even while it executes an instruction. -/
structure Sound (m : Machine x) (s : Setup) : Prop where
  /-- Text, data and configuration are where they were put. -/
  setup : m.setup = s
  guest : m.toGuest.Sound s.config.memory.heapBase s.config.memory.heapLimit
  pc_aligned : m.pc.toNat % instructionSize = 0
  pc_lt : m.pc.toNat < x.space

/-- What holds of a machine between two steps. -/
structure InOrder (m : Machine x) (s : Setup) : Prop extends m.Sound s where
  inText : m.state = .running ∨ m.state = .atBreakpoint → m.InText m.pc
  halted : m.exitCode ≠ none → m.state = .halted
  ready : m.state = .ready → m.statistics.cycles = 0 ∧ m.pc.toNat = s.entryAddress

/-- An instruction leaves the machine sound, even if it fails. -/
theorem Sound.executed {pc : Word} {i : Instruction}
    {r : EStateM.Result RunError (Machine x) Word} (h : m.Sound s)
    (hexecuted : StepM.Executed pc m i r) : (after r).Sound s := by
  have hguest (p : Guest x) (hp : p.Sound s.config.memory.heapBase s.config.memory.heapLimit) :
      Sound { m with toGuest := p } s :=
    ⟨h.setup, hp, h.pc_aligned, h.pc_lt⟩
  cases hexecuted with
  | @wrote rd v => exact hguest _ ⟨h.guest.registers.write rd v, h.guest.arena⟩
  | @stored memory => exact hguest _ ⟨h.guest.registers, h.guest.arena.withMemory memory⟩
  | branched | misbranched => exact hguest _ ⟨h.guest.registers, h.guest.arena⟩
  | passed | refused | misjumped => exact h
  | called _ hserved => exact hguest _ (h.guest.served hserved)
  | exited _ hserved => exact ⟨h.setup, h.guest.served hserved, h.pc_aligned, h.pc_lt⟩
  | uncalled hserved => exact hguest _ (h.guest.served hserved)

/-- A halted machine is in order wherever it stands. -/
theorem Sound.inOrder_halted (h : m.Sound s) (code : Option Int) :
    InOrder { m with state := .halted, exitCode := code } s where
  setup := h.setup
  guest := h.guest
  pc_aligned := h.pc_aligned
  pc_lt := h.pc_lt
  inText := by simp
  halted _ := rfl
  ready hready := by cases hready

/-- Only a program that has ended has an exit code. -/
theorem InOrder.exitCode_eq_none (h : m.InOrder s) (hlive : m.state ≠ .halted) :
    m.exitCode = none := by
  by_contra hcode
  exact hlive (h.halted hcode)

/-- A machine whose program counter lies in text may be running or have paused. -/
theorem InOrder.withState (h : m.InOrder s) (hlive : m.state ≠ .halted) (htext : m.InText m.pc)
    {state : RunState} (hstate : state ≠ .ready) : (m.withState state).InOrder s where
  setup := h.setup
  guest := h.guest
  pc_aligned := h.pc_aligned
  pc_lt := h.pc_lt
  inText _ := htext
  halted hcode := absurd (h.exitCode_eq_none hlive) hcode
  ready hready := absurd hready hstate

/-- Retiring an instruction puts the machine in order, if the next address holds one. -/
theorem Sound.inOrder_retired {i : Instruction} {next : Word} (h : n.Sound s)
    (haligned : next.toNat % instructionSize = 0) (hlt : next.toNat < x.space)
    (hstate : n.state = .running ∧ n.exitCode = none ∨ n.state = .halted) :
    (n.retired i next).InOrder s := by
  have hguest : Guest.Sound ⟨n.registers, n.arena, n.statistics.record i.category⟩
      s.config.memory.heapBase s.config.memory.heapLimit :=
    ⟨h.guest.registers, h.guest.arena⟩
  have hmoved : Sound { n with pc := next, statistics := n.statistics.record i.category } s :=
    ⟨h.setup, hguest, haligned, hlt⟩
  rw [retired]
  obtain ⟨hrunning, hcode⟩ | hhalted := hstate
  · have hlive : n.state ≠ .halted := by
      rw [hrunning]
      decide
    rw [if_neg hlive]
    by_cases htext : n.InText next
    · rw [if_pos htext]
      exact
        { hmoved with
          inText := fun _ => htext
          halted := fun hne => absurd hcode hne
          ready := fun hready => absurd (hrunning.symm.trans hready) (by decide) }
    · rw [if_neg htext]
      exact hmoved.inOrder_halted (some 0)
  · rw [if_pos hhalted]
    exact
      { setup := h.setup
        guest := hguest
        pc_aligned := h.pc_aligned
        pc_lt := h.pc_lt
        inText := by simp [hhalted]
        halted := fun _ => hhalted
        ready := fun hready => absurd (hhalted.symm.trans hready) (by decide) }

/-- A step leaves the machine in order, even if it fails. -/
theorem InOrder.stepped {r : EStateM.Result RunError (Machine x) RunState} (h : m.InOrder s)
    (hstepped : m.Stepped r) : (after r).InOrder s := by
  have hrunning : (m.withState .running).Sound s := ⟨h.setup, h.guest, h.pc_aligned, h.pc_lt⟩
  cases hstepped with
  | rested => exact h
  | left => exact h.toSound.inOrder_halted (some 0)
  | stopped | illegal => exact h.toSound.inOrder_halted m.exitCode
  | refused hlive htext => exact h.withState hlive htext (by decide)
  | retired hfaces hexecuted =>
    have hfollows := hexecuted.follows
    refine (hrunning.executed hexecuted).inOrder_retired (hfollows.aligned h.pc_aligned)
      hfollows.lt ?_
    rw [← h.exitCode_eq_none hfaces.running]
    exact hexecuted.state
  | @broken i e n hfaces hexecuted =>
    have hsound : n.Sound s := hrunning.executed hexecuted
    exact hsound.inOrder_halted n.exitCode

/-! ### Hosts -/

variable {c : Config} {p : Program}

/-- A freshly loaded machine is in order. -/
theorem inOrder_fresh {m : Machine c.general.xlen} (hfits : (Setup.place c p).Fits)
    (hsetup : m.setup = Setup.place c p)
    (hregisters : m.registers = initialRegisters (Setup.place c p))
    (harena : m.arena.Spans c.memory.heapBase c.memory.heapLimit)
    (hpc : m.pc = BitVec.ofNat 64 (Setup.place c p).entryAddress) (hstate : m.state = .ready)
    (hcode : m.exitCode = none) (hcycles : m.statistics.cycles = 0) :
    m.InOrder (Setup.place c p) := by
  have hstart : (Setup.place c p).entryAddress < c.general.xlen.space := hfits.entryAddress_lt rfl
  have hentry : m.pc.toNat = (Setup.place c p).entryAddress := by
    rw [hpc]
    exact Nat.mod_eq_of_lt (Nat.lt_of_lt_of_le hstart c.general.xlen.space_le_wordLimit)
  exact
    { setup := hsetup
      guest := ⟨hregisters ▸ sound_initialRegisters _, harena⟩
      pc_aligned := hentry ▸ hfits.entryAddress_aligned
      pc_lt := hentry ▸ hstart
      inText := by simp [hstate]
      halted := fun hne => absurd hcode hne
      ready := fun _ => ⟨hcycles, hentry⟩ }

theorem inOrder_boot {m : Machine c.general.xlen} (h : boot c p = .ok m) :
    m.InOrder (Setup.place c p) := by
  obtain ⟨hsetup, -, -⟩ := boot_spec h
  obtain ⟨hregisters, hpc, hstate⟩ := boot_start h
  obtain ⟨hcheck, hfits, hheap, hcode, hstatistics⟩ := boot_eq_ok h
  have hbase : m.arena.heap.base = c.memory.heapBase := congrArg Heap.base hheap
  have hlimit : m.arena.heap.limit = c.memory.heapLimit := congrArg Heap.limit hheap
  have hbrk : m.arena.heap.brk = c.memory.heapBase := congrArg Heap.brk hheap
  have hwindow := Config.window_of_check hcheck
  have harena : m.arena.Spans c.memory.heapBase c.memory.heapLimit := by
    rw [← hbase, ← hlimit] at hwindow ⊢
    exact Arena.spans_of_brk_eq hwindow (hbrk.trans hbase.symm)
  exact inOrder_fresh hfits hsetup hregisters harena hpc hstate hcode (by rw [hstatistics])

theorem InOrder.reset {m : Machine c.general.xlen} (hfits : (Setup.place c p).Fits)
    (h : m.InOrder (Setup.place c p)) : m.reset.InOrder (Setup.place c p) := by
  have hspans := h.guest.arena
  have harena : m.reset.arena.Spans m.arena.heap.base m.arena.heap.limit :=
    Arena.spans_of_brk_eq (a := m.reset.arena) hspans.inWindow.window rfl
  rw [hspans.base_eq, hspans.limit_eq] at harena
  have hregisters : m.reset.registers = initialRegisters m.setup := rfl
  have hpc : m.reset.pc = BitVec.ofNat 64 m.setup.entryAddress := rfl
  rw [h.setup] at hregisters hpc
  exact inOrder_fresh hfits h.setup hregisters harena hpc rfl rfl rfl

/-- Whatever a host does to a machine keeps it in order. -/
theorem lasting_inOrder (hfits : (Setup.place c p).Fits) :
    Lasting fun m : Machine c.general.xlen => m.InOrder (Setup.place c p) where
  step m h := h.stepped m.stepped
  pause _ h hface hlive := h.withState hlive hface.1 (by decide)
  reset _ h := h.reset hfits
  watch _ _ h := { h with }
  writeRegister _ r v h :=
    { h with guest := ⟨h.guest.registers.write r v, h.guest.arena⟩ }
  writeMemory _ memory h :=
    { h with guest := ⟨h.guest.registers, h.guest.arena.withMemory memory⟩ }
  request _ r h := { h with guest := ⟨h.guest.registers, h.guest.arena.request r⟩ }

/-- A machine comes about only from a program that fits. -/
theorem Driven.fits {m : Machine c.general.xlen} (h : Driven c p m) : (Setup.place c p).Fits := by
  obtain ⟨m₀, hboot, -⟩ := h
  exact (boot_eq_ok hboot).2.1

/-- Nothing lies above the words in the slots of a sound machine. -/
theorem Sound.canonical (h : m.Sound s) : m.Canonical :=
  canonical_iff.2
    ⟨fun r => x.mask_eq_self (h.guest.registers.read_lt r), x.mask_eq_self h.pc_lt⟩

/-- An instruction is fetched whatever the alignment policy. -/
theorem Sound.fetch_eq (h : m.Sound s) :
    m.memory.load m.pc.toNat instructionSize =
      .ok (m.memory.splitLoad m.pc.toNat instructionSize) :=
  m.memory.load_instruction h.pc_aligned

theorem Driven.inOrder {m : Machine c.general.xlen} (h : Driven c p m) :
    m.InOrder (Setup.place c p) :=
  (lasting_inOrder h.fits).driven (fun _ => inOrder_boot) h

theorem Driven.canonical {m : Machine c.general.xlen} (h : Driven c p m) : m.Canonical :=
  h.inOrder.canonical

/-- Every driven machine is in order.  So its next instruction is fetched whatever the
alignment policy, it sees every breakpoint in front of it, and its text and data, as far as
there are any, stay clear of the window of its heap. -/
theorem driven_inOrder {m : Machine c.general.xlen} (h : Driven c p m) :
    m.InOrder (Setup.place c p) ∧
      m.memory.load m.pc.toNat instructionSize =
        .ok (m.memory.splitLoad m.pc.toNat instructionSize) ∧
      (m.IsBreakpoint m.pc ↔ m.pc.toNat ∈ m.breakpoints ∨
        m.memory.splitLoad m.pc.toNat instructionSize = Instruction.ebreakWord.toNat) ∧
      ∀ segment, Disjoint (m.setup.addresses segment) (Set.Ico m.heap.base m.heap.limit) := by
  have horder := h.inOrder
  have hfetch := horder.fetch_eq
  refine ⟨horder, hfetch, ?_, fun segment => ?_⟩
  · rw [IsBreakpoint, hfetch, Except.toOption, Option.some.injEq]
  · have hspans := horder.guest.arena
    have hbase : m.heap.base = c.memory.heapBase := hspans.base_eq
    have hlimit : m.heap.limit = c.memory.heapLimit := hspans.limit_eq
    rw [hbase, hlimit, horder.setup]
    exact h.fits.disjoint_heap segment

/-- The instruction `jal zero, 0`, which jumps to itself. -/
def spin : Program := { text := [0x0000006F#32] }

/-- After a step, and with a breakpoint set in front of it, the machine is in order. -/
theorem driven_inOrder_spin : ∃ m m' : Machine .rv32,
    boot {} spin = .ok m ∧ m' = ((after (step m)).setBreakpoint 0).2 ∧ m'.state = .running ∧
      m'.InOrder (Setup.place {} spin) ∧ m'.InText m'.pc := by
  obtain ⟨m, hm⟩ : ∃ m : Machine .rv32, boot {} spin = .ok m := ⟨_, rfl⟩
  have hcalls : Relation.ReflTransGen Call m ((after (step m)).setBreakpoint 0).2 :=
    .tail (.single (.step m)) (.setBreakpoint _ 0)
  obtain ⟨horder, -⟩ := driven_inOrder (c := {}) (p := spin) ⟨m, hm, hcalls⟩
  have hstates : ((boot {} spin).toOption.map fun m => (after (step m)).state) =
      some .running := by
    decide +kernel
  have hrunning : (after (step m)).state = .running := by
    rw [hm] at hstates
    exact Option.some.inj hstates
  exact ⟨m, _, hm, rfl, hrunning, horder, horder.inText (.inl hrunning)⟩

end Machine

end Hart
