/-
Configurations.

A configuration fixes the width of a machine, its memory map, its alignment
policy and its allocator policy.  The defaults are the conventional map: text at
0, data at 0x10000000, the heap from 0x10008000 on, and the stack below
0x7FFFFFF0.

* `Config.check` — the first fault of a configuration, if it has one;
* `LayoutFault` — the faults, also those of a program placed under it.

Design notes: the heap needs room for a header, and its base is no null address
and cell-aligned.  The limit is exclusive, so it may be one past the largest
address of a 32-bit machine.
-/
import Hart.Heap.Header

namespace Hart

/-- The width of a machine and the conduct of its runs. -/
structure GeneralConfig where
  /-- The width of registers and addresses. -/
  xlen : Xlen := .rv32
  /-- Executed instructions are traced. -/
  traceInstructions : Bool := false
  /-- The most instructions that a run may execute. -/
  maxSteps : Option Nat := none
  deriving DecidableEq, Repr, Inhabited

structure MemoryConfig where
  /-- Accesses of several bytes must be naturally aligned. -/
  aligned : Bool := false
  /-- The address of text that was linked for none. -/
  textBase : Nat := 0x00000000
  /-- The address of data that was linked for none. -/
  dataBase : Nat := 0x10000000
  heapBase : Nat := 0x10008000
  /-- One past the last address of the heap. -/
  heapLimit : Nat := 0x40000000
  stackPointer : Nat := 0x7FFFFFF0
  globalPointer : Nat := 0x10008000
  deriving DecidableEq, Repr, Inhabited

structure HeapConfig where
  /-- Every allocation is filled with zeros. -/
  alwaysCalloc : Bool := false
  deriving DecidableEq, Repr, Inhabited

structure Config where
  general : GeneralConfig := {}
  memory : MemoryConfig := {}
  heap : HeapConfig := {}
  deriving DecidableEq, Repr, Inhabited

inductive Segment where
  | text | data
  deriving DecidableEq, Repr

def Segment.name : Segment → String
  | text => "text"
  | data => "data"

/-- Why a memory layout is impossible. -/
inductive LayoutFault where
  | heapBaseNull
  /-- The heap does not start at a multiple of the cell size. -/
  | heapBaseMisaligned (base bytes : Nat)
  | heapLimitLow (limit base : Nat)
  /-- The heap has no room for a header. -/
  | heapTooSmall (base limit header : Nat)
  /-- The configured text address is no multiple of the instruction size. -/
  | textBaseMisaligned (base : Nat)
  /-- A field does not fit in the width of the machine. -/
  | tooWide (field : String) (value bits : Nat)
  | textMisaligned (address : Nat)
  /-- A segment ends above the largest address. -/
  | segmentTooLong (segment : Segment)
  | segmentInHeap (segment : Segment) (start stop base limit : Nat)
  | entryOutside
  deriving DecidableEq, Repr

def LayoutFault.message : LayoutFault → String
  | heapBaseNull => "heap_base must not be the NULL address"
  | heapBaseMisaligned base bytes =>
    "heap_base " ++ Text.hex base ++ " is not " ++ toString bytes ++ "-byte aligned"
  | heapLimitLow limit base =>
    "heap_limit " ++ Text.hex limit ++ " must be above heap_base " ++ Text.hex base
  | heapTooSmall base limit header =>
    "heap window [" ++ Text.hex base ++ ", " ++ Text.hex limit ++ ") cannot hold a "
      ++ toString header ++ "-byte block header"
  | textBaseMisaligned base => "text_base " ++ Text.hex base ++ " is not instruction aligned"
  | tooWide field value bits =>
    field ++ " " ++ Text.hex value ++ " does not fit in " ++ toString bits ++ " bits"
  | textMisaligned address =>
    "text address " ++ Text.hex address ++ " is not instruction aligned"
  | segmentTooLong segment => segment.name ++ " segment exceeds the address space"
  | segmentInHeap segment start stop base limit =>
    segment.name ++ " segment [" ++ Text.hex start ++ ", " ++ Text.hex stop
      ++ ") overlaps the heap window [" ++ Text.hex base ++ ", " ++ Text.hex limit ++ ")"
  | entryOutside => "entry point is outside the text segment"

/-- Why there is no configuration, or no machine under it. -/
inductive ConfigError where
  /-- The document is no configuration. -/
  | document
  /-- The configuration describes an impossible layout. -/
  | layout (fault : LayoutFault)
  deriving DecidableEq, Repr

def ConfigError.message : ConfigError → String
  | document => "invalid configuration document"
  | layout fault => "invalid configuration: " ++ fault.message

namespace Config

/-- The addresses of a configuration, by name, with the largest value of each. -/
def bounds (c : Config) : List (String × Nat × Nat) :=
  let top := c.general.xlen.maxAddress
  let m := c.memory
  [("text_base", m.textBase, top), ("data_base", m.dataBase, top), ("heap_base", m.heapBase, top),
   ("heap_limit", m.heapLimit, min (top + 1) (wordLimit - 1)),
   ("stack_pointer", m.stackPointer, top), ("global_pointer", m.globalPointer, top)]

/-- The first fault of the layout, if there is one. -/
def fault? (c : Config) : Option LayoutFault :=
  let x := c.general.xlen
  let m := c.memory
  if m.heapBase = null then some .heapBaseNull
  else if m.heapBase % x.bytes ≠ 0 then some (.heapBaseMisaligned m.heapBase x.bytes)
  else if m.heapLimit ≤ m.heapBase then some (.heapLimitLow m.heapLimit m.heapBase)
  else if m.heapLimit < m.heapBase + headerSize x then
    some (.heapTooSmall m.heapBase m.heapLimit (headerSize x))
  else if m.textBase % 4 ≠ 0 then some (.textBaseMisaligned m.textBase)
  else
    (c.bounds.find? fun (_, value, top) => top < value).map fun (field, value, _) =>
      .tooWide field value x.bits

def check (c : Config) : Except ConfigError Unit :=
  match c.fault? with
  | some fault => .error (.layout fault)
  | none => .ok ()

end Config

end Hart
