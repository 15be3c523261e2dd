/-
Pages of memory.

A page is 4096 bytes.  It is read and written in runs of bytes that lie inside
it; a run that would leave the page is cut off at its end.

* `Page.byte_setByte` — a byte reads back, and no other byte changes;
* `Page.byte_write` — so does a run of bytes.
-/

namespace Hart

abbrev pageSize : Nat := 4096

abbrev Page := Vector UInt8 pageSize

namespace Page

def blank : Page := Vector.replicate pageSize 0

/-- The byte at an offset, zero outside the page. -/
def byte (p : Page) (offset : Nat) : UInt8 :=
  p[offset]?.getD 0

def setByte (p : Page) (offset : Nat) (b : UInt8) : Page :=
  p.setIfInBounds offset b

/-- The `count` bytes from an offset on. -/
def read (p : Page) (offset count : Nat) : List UInt8 :=
  (List.range count).map fun i => p.byte (offset + i)

def write (p : Page) (offset : Nat) : List UInt8 → Page
  | [] => p
  | b :: rest => (p.setByte offset b).write (offset + 1) rest

@[simp] theorem byte_blank (offset : Nat) : blank.byte offset = 0 := by
  unfold byte blank
  by_cases h : offset < pageSize
  · simp [Vector.getElem?_eq_getElem h]
  · simp [Vector.getElem?_eq_none (Nat.le_of_not_lt h)]

theorem byte_setByte (p : Page) (i j : Nat) (b : UInt8) :
    (p.setByte i b).byte j = if i = j ∧ i < pageSize then b else p.byte j := by
  by_cases hij : i = j
  · subst hij
    by_cases hi : i < pageSize
    · simp [byte, setByte, hi]
    · simp [byte, setByte, hi]
  · simp [byte, setByte, hij]

/-- A run of bytes changes the places that it covers, as far as the page goes. -/
theorem byte_write (p : Page) (offset : Nat) (bytes : List UInt8) (j : Nat) :
    (p.write offset bytes).byte j =
      if offset ≤ j ∧ j < pageSize then bytes[j - offset]?.getD (p.byte j) else p.byte j := by
  induction bytes generalizing p offset with
  | nil => simp [write]
  | cons b rest ih =>
    rw [write, ih, byte_setByte]
    by_cases hj : j < pageSize
    · -- The place lies below the run, at its first byte, or behind that.
      rcases Nat.lt_trichotomy j offset with hlt | heq | hgt
      · have h1 : ¬ (offset + 1 ≤ j) := by omega
        have h2 : ¬ (offset ≤ j) := by omega
        have h3 : offset ≠ j := by omega
        simp [h1, h2, h3]
      · subst heq
        have h1 : ¬ (j + 1 ≤ j) := by omega
        simp [h1, hj]
      · have h1 : offset + 1 ≤ j := hgt
        have h2 : offset ≤ j := by omega
        have h3 : offset ≠ j := by omega
        have h4 : j - offset = j - (offset + 1) + 1 := by omega
        simp [h1, h2, h3, h4, hj]
    · have h3 : ¬ (offset = j ∧ offset < pageSize) := by omega
      simp [hj, h3]

end Page

end Hart
