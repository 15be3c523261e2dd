/-
Lines of assembly text.

A line is a mnemonic and, behind a space, operands with commas between them.  What was
put into it can be read off it again:

* `hex_inj` — numbers in hexadecimal;
* `offset_inj` — offsets from a register;
* `line_inj` — a line, where no separator occurs in its mnemonic or its operands.
-/
import Mathlib.Data.List.Basic
import Hart.Text.Hex

namespace Hart.Text

/-! ### Separators -/

/-- What stands before the first separator, and what behind it. -/
theorem append_cons_inj {c : Char} {a b s t : List Char} (ha : c ∉ a) (hb : c ∉ b)
    (h : a ++ c :: s = b ++ c :: t) : a = b ∧ s = t := by
  induction a generalizing b with
  | nil =>
    cases b with
    | nil => exact ⟨rfl, (List.cons.inj h).2⟩
    | cons d b => exact absurd ((List.cons.inj h).1 ▸ List.mem_cons_self) hb
  | cons d a ih =>
    cases b with
    | nil => exact absurd ((List.cons.inj h).1 ▸ List.mem_cons_self) ha
    | cons e b =>
      obtain ⟨rfl, htail⟩ := List.cons.inj h
      obtain ⟨rfl, hst⟩ :=
        ih (List.not_mem_of_not_mem_cons ha) (List.not_mem_of_not_mem_cons hb) htail
      exact ⟨rfl, hst⟩

theorem intercalate_inj {l k : List (List Char)} (hl : ∀ a ∈ l, ',' ∉ a) (hk : ∀ a ∈ k, ',' ∉ a)
    (hl₀ : l ≠ []) (hk₀ : k ≠ [])
    (h : [',', ' '].intercalate l = [',', ' '].intercalate k) : l = k := by
  induction l generalizing k with
  | nil => exact absurd rfl hl₀
  | cons a l ih =>
    cases k with
    | nil => exact absurd rfl hk₀
    | cons b k =>
      have ha := hl a List.mem_cons_self
      have hb := hk b List.mem_cons_self
      -- An item that ends its list has no comma behind it.
      cases l with
      | nil =>
        cases k with
        | nil => simpa only [List.intercalate_singleton, List.cons.injEq, and_true] using h
        | cons c k =>
          rw [List.intercalate_singleton, List.intercalate_cons_cons] at h
          exact absurd (h ▸ by simp) ha
      | cons d l =>
        cases k with
        | nil =>
          rw [List.intercalate_singleton, List.intercalate_cons_cons] at h
          exact absurd (h ▸ by simp) hb
        | cons c k =>
          rw [List.intercalate_cons_cons, List.intercalate_cons_cons, List.append_assoc,
            List.append_assoc] at h
          obtain ⟨rfl, hrest⟩ := append_cons_inj ha hb h
          rw [ih (fun a h => hl a (List.mem_cons_of_mem _ h))
            (fun a h => hk a (List.mem_cons_of_mem _ h)) (List.cons_ne_nil _ _)
            (List.cons_ne_nil _ _) (List.cons.inj hrest).2]

/-! ### Lines -/

/-- A mnemonic with its operands. -/
def line (mnemonic : String) : List String → String
  | [] => mnemonic
  | operands => mnemonic ++ " " ++ ", ".intercalate operands

theorem line_pair {m t : String} (ht : m ++ " " = t) (a b : String) :
    line m [a, b] = t ++ a ++ ", " ++ b := by
  show m ++ " " ++ (a ++ ", " ++ b) = _
  simp only [← ht, String.append_assoc]

theorem toList_line_cons (m a : String) (l : List String) :
    (line m (a :: l)).toList =
      m.toList ++ ' ' :: [',', ' '].intercalate ((a :: l).map String.toList) := by
  simp only [line, String.toList_append, String.toList_intercalate, List.append_assoc]
  rfl

theorem line_inj {m m' : String} {l l' : List String} (hm : ' ' ∉ m.toList)
    (hm' : ' ' ∉ m'.toList) (hl : ∀ a ∈ l, ',' ∉ a.toList) (hl' : ∀ a ∈ l', ',' ∉ a.toList)
    (h : line m l = line m' l') : m = m' ∧ l = l' := by
  have hlist := congrArg String.toList h
  cases l with
  | nil =>
    cases l' with
    | nil => exact ⟨h, rfl⟩
    | cons b l' =>
      rw [toList_line_cons] at hlist
      exact absurd (hlist ▸ by simp) hm
  | cons a l =>
    cases l' with
    | nil =>
      rw [toList_line_cons] at hlist
      exact absurd (hlist ▸ by simp) hm'
    | cons b l' =>
      rw [toList_line_cons, toList_line_cons] at hlist
      obtain ⟨hmm, hll⟩ := append_cons_inj hm hm' hlist
      have hmap := intercalate_inj (by simpa using hl) (by simpa using hl') (by simp) (by simp) hll
      exact ⟨String.toList_inj.1 hmm,
        List.map_injective_iff.2 (fun _ _ => String.toList_inj.1) hmap⟩

/-! ### Numbers -/

/-- The number of a digit of a base up to 16. -/
def digitValue (c : Char) : Nat :=
  if c.toNat < 97 then c.toNat - 48 else c.toNat - 87

/-- The number of digits in base `b`, the highest first. -/
def digitsValue (b : Nat) (digits : List Char) : Nat :=
  digits.foldl (fun v c => b * v + digitValue c) 0

theorem digitValue_digitChar {d : Nat} (hd : d < 16) : digitValue (Nat.digitChar d) = d := by
  revert d
  decide

theorem digitsValue_toDigits {b : Nat} (hb : 1 < b) (hb16 : b ≤ 16) (n : Nat) :
    digitsValue b (Nat.toDigits b n) = n := by
  induction n using Nat.strongRecOn with
  | ind n ih =>
    by_cases hn : n < b
    · rw [Nat.toDigits_of_lt_base hn]
      simp [digitsValue, digitValue_digitChar (Nat.lt_of_lt_of_le hn hb16)]
    · have hlt : n / b < n := Nat.div_lt_self (by omega) hb
      have hmod : n % b < b := Nat.mod_lt n (by omega)
      have hdiv := ih (n / b) hlt
      rw [digitsValue] at hdiv
      rw [Nat.toDigits_of_base_le hb (Nat.not_lt.1 hn), digitsValue, List.foldl_append, hdiv,
        List.foldl_cons, List.foldl_nil, digitValue_digitChar (Nat.lt_of_lt_of_le hmod hb16)]
      exact Nat.div_add_mod n b

theorem toDigits_inj {b m n : Nat} (hb : 1 < b) (hb16 : b ≤ 16)
    (h : Nat.toDigits b m = Nat.toDigits b n) : m = n := by
  rw [← digitsValue_toDigits hb hb16 m, h, digitsValue_toDigits hb hb16 n]

theorem notMem_toDigits {b : Nat} (hb : 1 < b) {c : Char} (hc : ∀ d, Nat.digitChar d ≠ c)
    (n : Nat) : c ∉ Nat.toDigits b n := by
  induction n using Nat.strongRecOn with
  | ind n ih =>
    by_cases hn : n < b
    · rw [Nat.toDigits_of_lt_base hn]
      simpa using (hc n).symm
    · rw [Nat.toDigits_of_base_le hb (Nat.not_lt.1 hn)]
      have hlt : n / b < n := Nat.div_lt_self (by omega) hb
      simpa using ⟨ih _ hlt, (hc (n % b)).symm⟩

theorem hex_inj {m n : Nat} : hex m = hex n ↔ m = n := by
  refine ⟨fun h => ?_, congrArg hex⟩
  have hdigits : hexDigits m = hexDigits n := (String.append_right_inj _).1 h
  exact toDigits_inj (by decide) (by decide) (String.ofList_injective hdigits)

theorem notMem_hex {c : Char} (hc : ∀ d, Nat.digitChar d ≠ c) (hx : c ≠ 'x') (n : Nat) :
    c ∉ (hex n).toList := by
  have hzero : c ≠ '0' := (hc 0).symm
  simp [hex, hexDigits, notMem_toDigits _ hc, hzero, hx]

theorem toList_toString (n : Int) :
    (toString n).toList =
      (if n < 0 then ['-'] else []) ++ Nat.toDigits 10 n.natAbs := by
  rw [Int.toString_eq_repr]
  cases n with
  | ofNat n => simp [Int.repr]
  | negSucc n => simp [Int.repr, Int.negSucc_lt_zero]

theorem notMem_toString {c : Char} (hc : ∀ d, Nat.digitChar d ≠ c) (hsign : c ≠ '-') (n : Int) :
    c ∉ (toString n).toList := by
  rw [toList_toString]
  split <;> simp [notMem_toDigits _ hc, hsign]

theorem toString_inj {m n : Int} : toString m = toString n ↔ m = n := by
  refine ⟨fun h => ?_, congrArg toString⟩
  have hminus : ∀ k, '-' ∉ Nat.toDigits 10 k :=
    notMem_toDigits (by decide) fun d => Nat.digitChar_ne '-' rfl
  have hlist := congrArg String.toList h
  rw [toList_toString, toList_toString] at hlist
  by_cases hm : m < 0 <;> by_cases hn : n < 0
  · rw [if_pos hm, if_pos hn] at hlist
    have habs := toDigits_inj (by decide) (by decide) (List.append_cancel_left hlist)
    omega
  · rw [if_pos hm, if_neg hn, List.nil_append] at hlist
    exact absurd (hlist ▸ by simp) (hminus n.natAbs)
  · rw [if_neg hm, if_pos hn, List.nil_append] at hlist
    exact absurd (hlist ▸ by simp) (hminus m.natAbs)
  · rw [if_neg hm, if_neg hn] at hlist
    have habs := toDigits_inj (by decide) (by decide) (List.append_cancel_left hlist)
    omega

theorem offset_inj {m n : Int} {a b : String} :
    toString m ++ "(" ++ a ++ ")" = toString n ++ "(" ++ b ++ ")" ↔ m = n ∧ a = b := by
  constructor
  · intro h
    have hopen : ∀ d, Nat.digitChar d ≠ '(' := fun d => Nat.digitChar_ne '(' rfl
    have hlist := congrArg String.toList ((String.append_left_inj _).1 h)
    simp only [String.toList_append, List.append_assoc] at hlist
    obtain ⟨hnumber, hname⟩ := append_cons_inj (notMem_toString hopen (by decide) m)
      (notMem_toString hopen (by decide) n) hlist
    exact ⟨toString_inj.1 (String.toList_inj.1 hnumber), String.toList_inj.1 hname⟩
  · rintro ⟨rfl, rfl⟩
    rfl

end Hart.Text
