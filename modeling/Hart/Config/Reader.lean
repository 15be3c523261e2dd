/-
Configurations as JSON documents.

A document is an object with a section for each part of a configuration, and a
section is an object with its settings.  What is missing takes its default.

* `Config.ofDocument?` — the configuration of a document;
* `Config.read` — the same with its layout checked.

Design notes: sections and settings may also be given as arrays in their order.
A width is given by its name, or as an object with the name for its only member
and null for its value.
-/
import Hart.Config.Basic
import Hart.Json.Value

namespace Hart

open Json (Value)

/-- A setting with a default. -/
def setting {α : Type} (read : Value → Option α) (default : α) (v : Option Value) : Option α :=
  match v with
  | some v => read v
  | none => some default

def Xlen.ofName? (name : String) : Option Xlen :=
  if name = "Rv32" then some .rv32 else if name = "Rv64" then some .rv64 else none

def Xlen.ofValue? : Value → Option Xlen
  | .text s => s.bind ofName?
  | .object [(name, .null)] => name.bind ofName?
  | _ => none

/-- A limit: a number, or null for none. -/
def limit? : Value → Option (Option Nat)
  | .null => some none
  | v => v.natural?.map some

/-- The section with the width and the conduct of runs. -/
def GeneralConfig.ofValue? (v : Value) : Option GeneralConfig := do
  let default : GeneralConfig := {}
  match ← v.fields? ["xlen", "trace_instructions", "max_steps"] with
  | [xlen, trace, steps] =>
    return {
      xlen := ← setting Xlen.ofValue? default.xlen xlen
      traceInstructions := ← setting Value.bool? default.traceInstructions trace
      maxSteps := ← setting limit? default.maxSteps steps }
  | _ => none

def MemoryConfig.ofValue? (v : Value) : Option MemoryConfig := do
  let default : MemoryConfig := {}
  match ← v.fields? ["aligned_addresses", "text_base", "data_base", "heap_base", "heap_limit",
    "stack_pointer", "global_pointer"] with
  | [aligned, text, data, heapBase, heapLimit, stack, global] =>
    return {
      aligned := ← setting Value.bool? default.aligned aligned
      textBase := ← setting Value.natural? default.textBase text
      dataBase := ← setting Value.natural? default.dataBase data
      heapBase := ← setting Value.natural? default.heapBase heapBase
      heapLimit := ← setting Value.natural? default.heapLimit heapLimit
      stackPointer := ← setting Value.natural? default.stackPointer stack
      globalPointer := ← setting Value.natural? default.globalPointer global }
  | _ => none

def HeapConfig.ofValue? (v : Value) : Option HeapConfig := do
  match ← v.fields? ["always_calloc"] with
  | [alwaysCalloc] => return { alwaysCalloc := ← setting Value.bool? false alwaysCalloc }
  | _ => none

namespace Config

def ofValue? (v : Value) : Option Config := do
  match ← v.fields? ["general", "memory", "heap"] with
  | [general, memory, heap] =>
    return {
      general := ← setting GeneralConfig.ofValue? {} general
      memory := ← setting MemoryConfig.ofValue? {} memory
      heap := ← setting HeapConfig.ofValue? {} heap }
  | _ => none

def ofDocument? (document : String) : Option Config :=
  (Value.ofString? document).bind ofValue?

/-- The configuration that a document describes, if its layout is possible. -/
def read (document : String) : Except ConfigError Config :=
  match ofDocument? document with
  | none => .error .document
  | some c =>
    match c.check with
    | .ok _ => .ok c
    | .error e => .error e

end Config

end Hart
