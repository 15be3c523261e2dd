/-
Starting a machine over.

A host may have driven a machine anywhere, through failures and over its own memory and
headers.  Starting it over leads back to the machine that was booted, but for the settings
of the host, which are the breakpoints and the two policies.

* `Machine.withSettings` — a machine with the settings of another;
* `Driven.reset_eq` — a driven machine, started over, is the booted one with its settings;
* `reset_restores` — so it cannot be told from the booted machine once the settings are as
  they were.

Design notes: what starting over does not set is what nothing ever changes, and that is the
part of `Machine.InOrder` used here: the setup of a machine, and the window of its heap.
-/
import Hart.Proofs.Machine.Invariants
import Hart.Proofs.Memory.Policy

namespace Hart

variable {x : Xlen}

/-- A heap without a first block has none. -/
theorem Arena.blocks_of_head_eq_null {a : Arena x} (h : a.heap.head = null) :
    a.blocks = .ok [] := by
  rw [blocks, h]
  cases a.heap.maxBlocks <;> (rw [blocksFrom, if_pos rfl]; rfl)

namespace Machine

/-- The machine with the breakpoints and the policies of another. -/
def withSettings (m m' : Machine x) : Machine x :=
  { m with
    arena :=
      { heap := { m.heap with alwaysCalloc := m'.heap.alwaysCalloc }
        memory := m.memory.withAligned m'.memory.aligned }
    breakpoints := m'.breakpoints }

/-- With settings that are the same already, nothing changes. -/
theorem withSettings_eq_self {m m' : Machine x} (hbreakpoints : m'.breakpoints = m.breakpoints)
    (haligned : m'.memory.aligned = m.memory.aligned)
    (hpolicy : m'.heap.alwaysCalloc = m.heap.alwaysCalloc) : m.withSettings m' = m := by
  rw [withSettings, hbreakpoints, haligned, hpolicy]
  rfl

/-- Starting over, part by part. -/
theorem reset_eq (m : Machine x) :
    m.reset =
      { registers := initialRegisters m.setup
        arena :=
          { heap := m.heap.reset
            memory := (((Memory.empty x false).withAligned m.memory.aligned).storeBytes
              m.setup.textStart m.setup.program.textBytes).storeBytes m.setup.dataStart
              m.setup.program.data }
        statistics := {}
        setup := m.setup
        pc := BitVec.ofNat 64 m.setup.entryAddress
        state := .ready
        exitCode := none
        breakpoints := m.breakpoints } :=
  rfl

variable {c : Config} {p : Program} {m m₀ : Machine c.general.xlen}

/-- Whatever was done to a machine, started over it is the booted one with its settings. -/
theorem Driven.reset_eq (hboot : boot c p = .ok m₀) (h : Driven c p m) :
    m.reset = m₀.withSettings m := by
  have hsound := h.inOrder.toSound
  have hspans := hsound.guest.arena
  obtain ⟨hsetup, -, hmemory⟩ := boot_spec hboot
  obtain ⟨hregisters, hpc, hstate⟩ := boot_start hboot
  obtain ⟨-, -, hheap, hcode, hstatistics⟩ := boot_eq_ok hboot
  have hreset : m.heap.reset = { m₀.heap with alwaysCalloc := m.heap.alwaysCalloc } := by
    have hbase : m.heap.base = c.memory.heapBase := hspans.base_eq
    have hlimit : m.heap.limit = c.memory.heapLimit := hspans.limit_eq
    rw [hheap, Heap.reset, hbase, hlimit]
    rfl
  have hcleared : (((Memory.empty c.general.xlen false).withAligned m.memory.aligned).storeBytes
      (Setup.place c p).textStart p.textBytes).storeBytes (Setup.place c p).dataStart p.data =
        m₀.memory.withAligned m.memory.aligned := by
    rw [hmemory, ← Memory.storeBytes_withAligned, ← Memory.storeBytes_withAligned]
    rfl
  have hprogram : (Setup.place c p).program = p := rfl
  show _ = Machine.mk ⟨m₀.registers, ⟨{ m₀.heap with alwaysCalloc := m.heap.alwaysCalloc },
    m₀.memory.withAligned m.memory.aligned⟩, m₀.statistics⟩ m₀.setup m₀.pc m₀.state m₀.exitCode
    m.breakpoints
  rw [Machine.reset_eq, hsound.setup, hreset, hprogram, hcleared, hregisters, hstatistics, hsetup,
    hpc, hstate, hcode]

/-- After any calls of a host, whether they succeeded or failed, a machine that is started
over agrees with the booted one in everything but its breakpoints and policies, which it
keeps.  Once these are as they were, it is the booted machine, and whatever is called on it
from then on ends as it does there. -/
theorem reset_restores (hboot : boot c p = .ok m₀) (h : Driven c p m) :
    (m.reset.registers = m₀.registers ∧ m.reset.pc = m₀.pc ∧ m.reset.state = m₀.state ∧
      m.reset.exitCode = m₀.exitCode ∧ m.reset.statistics = m₀.statistics ∧
      m.reset.setup = m₀.setup) ∧
    ((∀ a, m.reset.memory.loadByte a = m₀.memory.loadByte a) ∧
      m.reset.memory.mappedPages = m₀.memory.mappedPages) ∧
    (m.reset.heap.base = m₀.heap.base ∧ m.reset.heap.limit = m₀.heap.limit ∧
      m.reset.heap.brk = m₀.heap.base ∧ m.reset.arena.blocks = .ok [] ∧
      m.reset.heap.active = 0) ∧
    (m.reset.breakpoints = m.breakpoints ∧ m.reset.memory.aligned = m.memory.aligned ∧
      m.reset.heap.alwaysCalloc = m.heap.alwaysCalloc) ∧
    (m.breakpoints = m₀.breakpoints → m.memory.aligned = m₀.memory.aligned →
      m.heap.alwaysCalloc = m₀.heap.alwaysCalloc → m.reset = m₀) := by
  have hreset := h.reset_eq hboot
  obtain ⟨-, -, hheap, -, -⟩ := boot_eq_ok hboot
  have hbrk : m₀.heap.brk = m₀.heap.base := by
    rw [hheap]
    rfl
  refine ⟨?_, ?_, ?_, ?_, fun hbreakpoints haligned hpolicy => ?_⟩
  · rw [hreset]
    exact ⟨rfl, rfl, rfl, rfl, rfl, rfl⟩
  · rw [hreset]
    exact ⟨fun _ => rfl, rfl⟩
  · refine ⟨?_, ?_, ?_, Arena.blocks_of_head_eq_null rfl, rfl⟩
    all_goals
      rw [hreset]
    · rfl
    · rfl
    · exact hbrk
  · rw [hreset]
    exact ⟨rfl, rfl, rfl⟩
  · rw [hreset]
    exact withSettings_eq_self hbreakpoints haligned hpolicy

/-- A machine with an allocation that nobody released, and a register written, is new again
once it is started over. -/
theorem reset_restores_spin : ∃ m₀ m : Machine .rv32,
    boot {} spin = .ok m₀ ∧ Driven {} spin m ∧ m.heap.active = 1 ∧ m.reset.heap.active = 0 ∧
      m.reset = m₀ := by
  obtain ⟨m₀, hm₀⟩ : ∃ m₀ : Machine .rv32, boot {} spin = .ok m₀ := ⟨_, rfl⟩
  let allocated : Machine .rv32 :=
    { m₀ with arena := Reply.arena ((Request.malloc 16).run m₀.arena) }
  have hdriven : Driven {} spin (allocated.writeRegister Register.sp 0) :=
    ⟨m₀, hm₀, .tail (.single (.request m₀ (.malloc 16))) (.writeRegister _ _ _)⟩
  have hparts : ((boot {} spin).toOption.map fun m =>
      let a := Reply.arena ((Request.malloc 16).run m.arena)
      (a.heap.active, a.memory.aligned == m.memory.aligned,
        a.heap.alwaysCalloc == m.heap.alwaysCalloc)) = some (1, true, true) := by
    decide +kernel
  rw [hm₀] at hparts
  obtain ⟨hactive, hsettings⟩ := Prod.mk.inj (Option.some.inj hparts)
  obtain ⟨haligned, hpolicy⟩ := Prod.mk.inj hsettings
  obtain ⟨-, -, ⟨-, -, -, -, hreleased⟩, -, hnew⟩ := reset_restores (c := {}) hm₀ hdriven
  exact ⟨m₀, _, hm₀, hdriven, hactive, hreleased, hnew rfl (beq_iff_eq.1 haligned)
    (beq_iff_eq.1 hpolicy)⟩

end Machine

end Hart
