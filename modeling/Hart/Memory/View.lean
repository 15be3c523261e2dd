/-
The bytes of ranges.

Reading, writing and clearing ranges works slice by slice, but what it does to
single bytes shows no slices and no pages:

* `loadBytes_eq_map` — a range is read as its bytes in order;
* `loadByte_storeBytes` — a written byte is found at its distance from the start;
* `loadByte_zero` — a cleared byte is one that lies less than the length above
  the start.

Design notes: an address lies in the part of a page from another address on
exactly when its distance from that address says so, so each slice is described
by the distance, and the slices of a range are joined by `Xlen.distance_add`.
-/
import Hart.Memory.Bulk

namespace Hart

namespace Memory

variable {x : Xlen}

/-! ### The bytes of a slice -/

/-- The slice from an address on. -/
theorem loadSlice_eq_map (m : Memory x) {a count : Nat} (h : offsetOf x a + count ≤ pageSize) :
    m.loadSlice ⟨pageOf x a, offsetOf x a, count⟩ =
      (List.range count).map fun i => m.loadByte (a + i) := by
  have hbyte (i : Nat) (hi : i ∈ List.range count) :=
    m.loadByte_add (a := a) (i := i) (by have := List.mem_range.1 hi; omega)
  rw [List.map_congr_left hbyte, loadSlice]
  cases m.pages[pageOf x a]? with
  | some page => rfl
  | none => simp [List.map_const']

theorem loadByte_storeSlice (m : Memory x) {a count : Nat} (c : Nat) {bytes : List UInt8}
    (h : offsetOf x a + bytes.length ≤ pageSize) :
    (m.storeSlice ⟨pageOf x a, offsetOf x a, count⟩ bytes).loadByte c =
      bytes[x.distance a c]?.getD (m.loadByte c) := by
  by_cases hd : x.distance a c < bytes.length
  · obtain ⟨hpage, hlow, hhigh⟩ := (distance_lt_iff h).1 hd
    have hoff := distance_eq h hd
    have hlt := offsetOf_lt (x := x) c
    unfold loadByte storeSlice
    rw [Std.ExtTreeMap.getElem?_alter, hpage, if_pos Std.ReflCmp.compare_self]
    cases hp : m.pages[pageOf x c]? with
    | some page =>
      simp [Page.byte_write, hlow, hlt, hoff]
    | none =>
      by_cases hz : bytes.all (· == 0)
      · -- Nothing is written, and the byte to be written is zero as well.
        have hzero : bytes[x.distance a c] = 0 := by
          have := List.all_eq_true.1 hz _ (List.getElem_mem hd)
          simpa using this
        simp [hz, hd, hzero]
      · simp [hz, Page.byte_write, hlow, hlt, hoff]
  · have hnone : bytes[x.distance a c]? = none := List.getElem?_eq_none (by omega)
    rw [hnone, Option.getD_none]
    unfold loadByte storeSlice
    rw [Std.ExtTreeMap.getElem?_alter]
    by_cases hpage : pageOf x a = pageOf x c
    · rw [if_pos (by rw [hpage]; exact Std.ReflCmp.compare_self), hpage]
      have hout : offsetOf x a ≤ offsetOf x c → bytes.length ≤ offsetOf x c - offsetOf x a := by
        intro hlow
        have := mt (distance_lt_iff h).2 hd
        omega
      have hwrite (p : Page) : (p.write (offsetOf x a) bytes).byte (offsetOf x c) =
          p.byte (offsetOf x c) := by
        rw [Page.byte_write]
        by_cases hlow : offsetOf x a ≤ offsetOf x c
        · rw [List.getElem?_eq_none (hout hlow)]; simp
        · simp [hlow]
      cases hp : m.pages[pageOf x c]? with
      | some page => simp [hwrite]
      | none => by_cases hz : bytes.all (· == 0) <;> simp [hz, hwrite]
    · have hne : compare (pageOf x a) (pageOf x c) ≠ .eq := by simpa using hpage
      rw [if_neg hne]

theorem loadByte_zeroSlice (m : Memory x) {a count : Nat} (c : Nat)
    (h : offsetOf x a + count ≤ pageSize) :
    (m.zeroSlice ⟨pageOf x a, offsetOf x a, count⟩).loadByte c =
      if x.distance a c < count then 0 else m.loadByte c := by
  unfold loadByte zeroSlice
  rw [Std.ExtTreeMap.getElem?_alter]
  by_cases hpage : pageOf x a = pageOf x c
  · rw [if_pos (by rw [hpage]; exact Std.ReflCmp.compare_self), hpage]
    by_cases hwhole : count = pageSize
    · -- The slice is the whole page, which is dropped.
      have hd : x.distance a c < count :=
        (distance_lt_iff h).2 ⟨hpage, by omega, by have := offsetOf_lt (x := x) c; omega⟩
      simp [hwhole, hwhole ▸ hd]
    · cases hp : m.pages[pageOf x c]? with
      | none => simp [hwhole]
      | some page =>
        have hlt := offsetOf_lt (x := x) c
        simp only [hwhole, if_false, Option.map_some, Page.byte_write, hlt, and_true]
        by_cases hd : x.distance a c < count
        · obtain ⟨-, hlow, hhigh⟩ := (distance_lt_iff h).1 hd
          have hin : offsetOf x c - offsetOf x a < count := by omega
          simp [hd, hlow, hin]
        · by_cases hlow : offsetOf x a ≤ offsetOf x c
          · have hout : count ≤ offsetOf x c - offsetOf x a := by
              have := mt (distance_lt_iff h).2 hd
              omega
            simp [hd, hout]
          · simp [hd, hlow]
  · have hne : compare (pageOf x a) (pageOf x c) ≠ .eq := by simpa using hpage
    have hd : ¬ x.distance a c < count := fun hd => hpage ((distance_lt_iff h).1 hd).1
    rw [if_neg hne, if_neg hd]

/-! ### The bytes of a range -/

theorem slices_zero (a : Nat) : slices x a 0 = [] := by
  rw [slices, if_pos rfl]

/-- A range starts with the part of it that lies in the first page. -/
theorem exists_slices_eq (a : Nat) {n : Nat} (hn : n ≠ 0) :
    ∃ count, 0 < count ∧ count ≤ n ∧ offsetOf x a + count ≤ pageSize ∧
      slices x a n = ⟨pageOf x a, offsetOf x a, count⟩ :: slices x (a + count) (n - count) := by
  have hlt := offsetOf_lt (x := x) a
  refine ⟨min (pageSize - offsetOf x a) n, by omega, by omega, by omega, ?_⟩
  rw [slices, if_neg hn]

theorem loadBytes_eq_map (m : Memory x) (a n : Nat) :
    m.loadBytes a n = (List.range n).map fun i => m.loadByte (a + i) := by
  induction n using Nat.strongRecOn generalizing a with
  | ind n ih =>
    by_cases hn : n = 0
    · subst hn
      simp [loadBytes, slices_zero]
    · obtain ⟨count, hpos, hle, hfit, hslices⟩ := exists_slices_eq (x := x) a hn
      have hrest : (slices x (a + count) (n - count)).flatMap m.loadSlice =
          (List.range (n - count)).map fun i => m.loadByte (a + count + i) :=
        ih (n - count) (by omega) (a + count)
      rw [loadBytes, hslices, List.flatMap_cons, hrest, loadSlice_eq_map m hfit]
      have hsplit : List.range n = List.range count ++ (List.range (n - count)).map (count + ·) := by
        rw [← List.range_add, Nat.add_sub_cancel' hle]
      simp [hsplit, Nat.add_assoc]

@[simp] theorem length_loadBytes (m : Memory x) (a n : Nat) : (m.loadBytes a n).length = n := by
  simp [loadBytes_eq_map]

@[simp] theorem aligned_storeSlices (m : Memory x) (ss : List Slice) (bytes : List UInt8) :
    (m.storeSlices ss bytes).aligned = m.aligned := by
  induction ss generalizing m bytes with
  | nil => rfl
  | cons s rest ih => rw [storeSlices, ih, storeSlice]

@[simp] theorem aligned_storeBytes (m : Memory x) (a : Nat) (bytes : List UInt8) :
    (m.storeBytes a bytes).aligned = m.aligned :=
  aligned_storeSlices _ _ _

theorem loadByte_storeBytes (m : Memory x) (a c : Nat) {bytes : List UInt8}
    (h : bytes.length ≤ x.space) :
    (m.storeBytes a bytes).loadByte c = bytes[x.distance a c]?.getD (m.loadByte c) := by
  unfold storeBytes
  generalize hlen : bytes.length = n at h
  induction n using Nat.strongRecOn generalizing m a bytes with
  | ind n ih =>
    by_cases hn : n = 0
    · have hnil : bytes = [] := List.eq_nil_of_length_eq_zero (hlen.trans hn)
      simp [hn, hnil, slices_zero, storeSlices]
    · obtain ⟨count, hpos, hle, hfit, hslices⟩ := exists_slices_eq (x := x) a hn
      have hd := x.distance_lt a c
      rw [hslices, storeSlices, ih (n - count) (by omega) _ (a + count) (by simp [hlen]) (by omega),
        loadByte_storeSlice m c (by simp; omega), x.distance_add a c (by omega)]
      by_cases hc : count ≤ x.distance a c
      · -- The byte lies behind the first slice.
        have hnone : (bytes.take count)[x.distance a c]? = none :=
          List.getElem?_eq_none (by rw [List.length_take]; omega)
        rw [hnone, if_pos hc, List.getElem?_drop, Nat.add_sub_cancel' hc, Option.getD_none]
      · have hout : n - count ≤ x.distance a c + x.space - count := by omega
        have hin : x.distance a c < count := by omega
        have hdrop : (bytes.drop count)[x.distance a c + x.space - count]? = none :=
          List.getElem?_eq_none (by rw [List.length_drop, hlen]; exact hout)
        simp [hc, hdrop, hin]

@[simp] theorem aligned_zero (m : Memory x) (a n : Nat) : (m.zero a n).aligned = m.aligned := by
  unfold zero
  induction slices x a n generalizing m with
  | nil => rfl
  | cons s rest ih => rw [List.foldl_cons, ih, zeroSlice]

theorem loadByte_zero (m : Memory x) (a n c : Nat) :
    (m.zero a n).loadByte c = if x.distance a c < n then 0 else m.loadByte c := by
  unfold zero
  induction n using Nat.strongRecOn generalizing m a with
  | ind n ih =>
    by_cases hn : n = 0
    · simp [hn, slices_zero]
    · obtain ⟨count, hpos, hle, hfit, hslices⟩ := exists_slices_eq (x := x) a hn
      have hspace : count ≤ x.space := by
        have := offsetOf_lt (x := x) a
        cases x <;> simp only [Xlen.space, pageSize] at * <;> omega
      rw [hslices, List.foldl_cons, ih (n - count) (by omega), loadByte_zeroSlice m c hfit,
        x.distance_add a c hspace]
      by_cases hc : count ≤ x.distance a c
      · have hiff : x.distance a c - count < n - count ↔ x.distance a c < n := by omega
        have hnot : ¬ x.distance a c < count := by omega
        simp [hc, hiff, hnot]
      · have hin : x.distance a c < count := by omega
        have hin' : x.distance a c < n := by omega
        simp [hin, hin']

end Memory

end Hart
