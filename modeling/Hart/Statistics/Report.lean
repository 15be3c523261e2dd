/-
Reports of the counters.

* `Statistics.render` — a table for reading, with the share of each class;
* `Statistics.toJson` — a JSON object with one field to a line.

Design notes: a share is computed in doubles, as a quotient and then times a
hundred, and written with two places.  A run without cycles counts as one cycle.
-/
import Hart.Decimal.FixedPlaces
import Hart.Statistics.Basic

namespace Hart.Statistics

/-- The counters by name, in the order in which they are reported. -/
def fields (s : Statistics) : List (String × Nat) :=
  [("cycles", s.cycles), ("inst_alu", s.alu), ("inst_load", s.load), ("inst_store", s.store),
   ("inst_branch", s.branch), ("branches_taken", s.branchesTaken), ("inst_jump", s.jump),
   ("inst_system", s.system), ("heap_malloc", s.malloc), ("heap_calloc", s.calloc),
   ("heap_realloc", s.realloc), ("heap_free", s.free), ("heap_failed", s.failed),
   ("heap_peak_active", s.peakActive)]

def toJson (s : Statistics) : String :=
  let lines := s.fields.map fun (name, n) => "  \"" ++ name ++ "\": " ++ toString n
  "\x7b\n" ++ String.intercalate ",\n" lines ++ "\n\x7d"

/-- The share of `n` in the cycles of a run, as a percentage. -/
def percent (s : Statistics) (n : Nat) : Float :=
  n.toUInt64.toFloat / (max s.cycles 1).toUInt64.toFloat * 100.0

/-- A line of the table: a name in a column of 25 characters and what follows. -/
def line (name rest : String) : String :=
  Text.padRight 25 ' ' name ++ rest

def render (s : Statistics) : String :=
  let double := String.ofList (List.replicate 58 '=')
  let single := String.ofList (List.replicate 58 '-')
  let share (name : String) (n : Nat) : String :=
    let percentage := (Decimal.BinaryFraction.ofFloat (s.percent n)).fixedPlaces 2
    line ("  " ++ name) (toString n ++ " (" ++ percentage ++ "%)")
  let count (name : String) (n : Nat) : String := line name (toString n)
  let lines :=
    [double, "RISC-V SIMULATION STATISTICS", double, count "sim_cycles" s.cycles, single,
     "INSTRUCTION MIX", share "alu" s.alu, share "load" s.load, share "store" s.store,
     share "branch" s.branch, share "jump" s.jump, share "system" s.system,
     count "  branches.taken" s.branchesTaken, single, "HEAP", count "  malloc" s.malloc,
     count "  calloc" s.calloc, count "  realloc" s.realloc, count "  free" s.free,
     count "  failed" s.failed, count "  peak_active" s.peakActive, double]
  String.join (lines.map (· ++ "\n"))

end Hart.Statistics
