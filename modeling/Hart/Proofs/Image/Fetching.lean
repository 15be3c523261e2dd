/-
From a flat image to the words that a machine fetches.

* `Program.ofFlat?_eq_ok_iff` — a flat image is a program when it is a row of words;
* `Machine.load_boot_word` — the words of a booted program are fetched from where text was
  placed;
* `Memory.getElem?_pages_storeBytes` — zeros create no page;
* `Machine.ofFlat?_faithful` — a flat image is found in memory as it was, byte by byte and word
  by word.

Design notes: a program without data is all that is written to memory, so what is said here
about flat images holds of every program without data.
-/
import Hart.Proofs.Image.Acceptance

namespace Hart

variable {bytes : List UInt8} {ws : List (BitVec 32)} {p : Program} {i j : Nat}

/-! ### Words and their bytes -/

/-- The bytes of a word spell it. -/
theorem littleEndian_toBytes_word (w : BitVec 32) :
    littleEndian (toBytes instructionSize w.toNat) = w.toNat := by
  rw [littleEndian_toBytes]
  exact Nat.mod_eq_of_lt w.isLt

theorem wordsOfBytes?_bytesOfWords (ws : List (BitVec 32)) :
    wordsOfBytes? (Program.bytesOfWords ws) = some ws := by
  induction ws with
  | nil => rfl
  | cons w ws ih =>
    rw [bytesOfWords_cons]
    show (wordsOfBytes? (Program.bytesOfWords ws)).map
      (BitVec.ofNat 32 (littleEndian (toBytes instructionSize w.toNat)) :: ·) = _
    rw [ih, littleEndian_toBytes_word, BitVec.ofNat_toNat, BitVec.setWidth_eq]
    rfl

theorem wordsOfBytes?_eq_some_iff :
    wordsOfBytes? bytes = some ws ↔ Program.bytesOfWords ws = bytes := by
  constructor
  · exact bytesOfWords_of_wordsOfBytes?
  · rintro rfl
    exact wordsOfBytes?_bytesOfWords ws

/-- Bytes are a row of words when their number says so. -/
theorem isSome_wordsOfBytes? (bytes : List UInt8) :
    (wordsOfBytes? bytes).isSome ↔ 4 ∣ bytes.length := by
  induction bytes using wordsOfBytes?.induct with
  | case1 => simp [wordsOfBytes?]
  | case2 b₀ b₁ b₂ b₃ rest ih =>
    rw [wordsOfBytes?, Option.isSome_map, ih]
    simp only [List.length_cons]
    omega
  | case3 bytes hnil hcons =>
    rw [wordsOfBytes?]
    · -- One, two or three bytes.
      rcases bytes with _ | ⟨b₀, _ | ⟨b₁, _ | ⟨b₂, _ | ⟨b₃, rest⟩⟩⟩⟩
      · exact absurd rfl hnil
      · simp
      · simp
      · simp
      · exact absurd rfl (hcons b₀ b₁ b₂ b₃ rest)
    · exact hnil
    · exact hcons

/-- The bytes of the word at a place in a row of words. -/
theorem getElem?_bytesOfWords (hi : i < ws.length) (hj : j < 4) :
    (Program.bytesOfWords ws)[4 * i + j]? = (toBytes 4 ws[i].toNat)[j]? := by
  induction ws generalizing i with
  | nil => exact absurd hi (Nat.not_lt_zero i)
  | cons w ws ih =>
    rw [bytesOfWords_cons]
    cases i with
    | zero =>
      rw [Nat.mul_zero, Nat.zero_add, List.getElem?_append_left (by simpa using hj)]
      rfl
    | succ i =>
      have hbehind : instructionSize ≤ 4 * (i + 1) + j := by
        rw [instructionSize]
        omega
      have hrest : 4 * (i + 1) + j - instructionSize = 4 * i + j := by
        rw [instructionSize]
        omega
      rw [List.getElem?_append_right (by simpa using hbehind), length_toBytes, hrest]
      exact ih (Nat.lt_of_succ_lt_succ hi)

/-! ### Flat images -/

/-- The program of a flat image that is not empty. -/
theorem Program.ofFlat?_of_ne_nil (h : bytes ≠ []) : Program.ofFlat? bytes =
    match wordsOfBytes? bytes with
    | some ws => .ok { text := ws }
    | none => .error (.misalignedText bytes.length) := by
  have hfull : ¬ bytes.isEmpty = true := by simpa using h
  unfold Program.ofFlat? textWords
  rw [if_neg hfull]
  cases wordsOfBytes? bytes <;> rfl

/-- A flat image is a program exactly when it is a row of words. -/
theorem Program.ofFlat?_eq_ok_iff : Program.ofFlat? bytes = .ok p ↔
    bytes ≠ [] ∧ p.textBytes = bytes ∧ p = { text := p.text } := by
  by_cases hempty : bytes = []
  · subst hempty
    exact iff_of_false (by rintro ⟨⟩) fun h => h.1 rfl
  rw [Program.ofFlat?_of_ne_nil hempty, Program.textBytes, ← wordsOfBytes?_eq_some_iff]
  cases hwords : wordsOfBytes? bytes with
  | none => exact iff_of_false (by rintro ⟨⟩) fun h => absurd h.2.1 (by simp)
  | some ws =>
    dsimp only
    rw [Except.ok.injEq, Option.some.injEq]
    constructor
    · rintro rfl
      exact ⟨hempty, rfl, rfl⟩
    · rintro ⟨-, rfl, h⟩
      exact h.symm

theorem Program.exists_ofFlat?_iff (bytes : List UInt8) :
    (∃ p, Program.ofFlat? bytes = .ok p) ↔ 0 < bytes.length ∧ 4 ∣ bytes.length := by
  rw [← isSome_wordsOfBytes?, List.length_pos_iff]
  constructor
  · rintro ⟨p, hp⟩
    obtain ⟨hne, hbytes, -⟩ := Program.ofFlat?_eq_ok_iff.1 hp
    rw [wordsOfBytes?_eq_some_iff.2 hbytes]
    exact ⟨hne, rfl⟩
  · rintro ⟨hne, hwords⟩
    obtain ⟨ws, hws⟩ := Option.isSome_iff_exists.1 hwords
    rw [Program.ofFlat?_of_ne_nil hne, hws]
    exact ⟨_, rfl⟩

/-- Text is read back from its bytes. -/
theorem Program.ofFlat?_textBytes (h : p.text ≠ []) :
    Program.ofFlat? p.textBytes = .ok { text := p.text } := by
  have hpos : 0 < p.textBytes.length := by
    rw [Program.length_textBytes, Program.textLength]
    exact Nat.mul_pos (List.length_pos_iff.2 h) (by decide)
  exact Program.ofFlat?_eq_ok_iff.2 ⟨List.length_pos_iff.1 hpos, rfl, rfl⟩

namespace Memory

variable {x : Xlen}

/-! ### Pages that are not created -/

/-- Writing creates no page where it writes nothing but zeros. -/
theorem getElem?_pages_storeBytes (m : Memory x) (a : Nat) {k : Nat} (hpage : m.pages[k]? = none)
    (hzero : ∀ i (hi : i < bytes.length), pageOf x (a + i) = k → bytes[i] = 0) :
    (m.storeBytes a bytes).pages[k]? = none := by
  unfold storeBytes
  -- Along the slices of the range; the memory so far is generalised.
  generalize hlen : bytes.length = n
  induction n using Nat.strongRecOn generalizing m a bytes with
  | ind n ih =>
    by_cases hn : n = 0
    · rw [hn, slices_zero]
      exact hpage
    · obtain ⟨count, hpos, hle, hfit, hslices⟩ := exists_slices_eq (x := x) a hn
      rw [hslices, storeSlices]
      refine ih (n - count) (by omega) _ (a + count) ?_ (fun i hi hk => ?_) (by simp [hlen])
      · unfold storeSlice
        rw [Std.ExtTreeMap.getElem?_alter]
        by_cases hk : pageOf x a = k
        · have hall : (bytes.take count).all (· == 0) = true := by
            refine List.all_eq_true.2 fun b hb => ?_
            obtain ⟨i, hi, rfl⟩ := List.mem_iff_getElem.1 hb
            rw [List.length_take] at hi
            have hi : i < count := by omega
            rw [List.getElem_take, beq_iff_eq]
            exact hzero i (by omega) ((pageOf_add (by omega)).trans hk)
          rw [if_pos (by rw [hk]; exact Std.ReflCmp.compare_self), hk, hpage]
          exact if_pos hall
        · rw [if_neg (by simpa using hk)]
          exact hpage
      · rw [List.getElem_drop]
        exact hzero (count + i) _ (by rw [← Nat.add_assoc]; exact hk)

end Memory

namespace Machine

variable {c : Config} {m : Machine c.general.xlen}

/-! ### Text in memory -/

/-- The text of a booted program without data, byte by byte. -/
theorem loadByte_boot_text (h : boot c p = .ok m) (hdata : p.data = []) {i : Nat}
    (hi : i < p.textBytes.length) :
    m.memory.loadByte ((Setup.place c p).textStart + i) = p.textBytes[i] := by
  obtain ⟨hstop, -⟩ := boot_stop_lt h
  obtain ⟨hsetup, -⟩ := boot_spec h
  rw [loadByte_boot h (by rw [← hsetup]; omega), hsetup, if_neg, if_pos, Nat.add_sub_cancel_left,
    List.getElem?_eq_getElem hi, Option.getD_some]
  · omega
  · rw [hdata, List.length_nil]
    omega

/-- The text of a booted program without data is read back as it was. -/
theorem loadBytes_boot_text (h : boot c p = .ok m) (hdata : p.data = []) :
    m.memory.loadBytes (Setup.place c p).textStart p.textBytes.length = p.textBytes := by
  rw [Memory.loadBytes_eq_map]
  refine List.ext_getElem (by simp) fun i _ hi => ?_
  rw [List.getElem_map, List.getElem_range]
  exact loadByte_boot_text h hdata hi

/-- The words of a booted program without data are fetched in a row. -/
theorem load_boot_word (h : boot c p = .ok m) (hdata : p.data = []) {i : Nat}
    (hi : i < p.text.length) :
    m.memory.load ((Setup.place c p).textStart + 4 * i) instructionSize =
      .ok p.text[i].toNat := by
  have haligned : ((Setup.place c p).textStart + 4 * i) % instructionSize = 0 := by
    have hstart : (Setup.place c p).textStart % 4 = 0 := (boot_eq_ok h).2.1.textStart_aligned
    rw [instructionSize]
    omega
  have hbytes : (List.range 4).map
      (fun j => m.memory.loadByte ((Setup.place c p).textStart + 4 * i + j)) =
        toBytes 4 p.text[i].toNat := by
    refine List.ext_getElem? fun j => ?_
    by_cases hj : j < 4
    · have hin : 4 * i + j < p.textBytes.length := by
        rw [Program.length_textBytes, Program.textLength, instructionSize]
        omega
      have hbyte := loadByte_boot_text h hdata hin
      rw [← Nat.add_assoc] at hbyte
      rw [← getElem?_bytesOfWords hi hj, List.getElem?_map, List.getElem?_range hj,
        Option.map_some, hbyte]
      exact (List.getElem?_eq_getElem hin).symm
    · rw [List.getElem?_eq_none (by simpa using hj), List.getElem?_eq_none (by simpa using hj)]
  rw [m.memory.load_instruction haligned, Memory.splitLoad]
  show Except.ok (littleEndian ((List.range 4).map _)) = _
  rw [hbytes]
  exact congrArg Except.ok (littleEndian_toBytes_word _)

/-- A page on which text has nothing but zeros does not exist. -/
theorem getElem?_pages_boot (h : boot c p = .ok m) (hdata : p.data = []) {k : Nat}
    (hzero : ∀ i (hi : i < p.textBytes.length),
      Memory.pageOf c.general.xlen ((Setup.place c p).textStart + i) = k → p.textBytes[i] = 0) :
    m.memory.pages[k]? = none := by
  obtain ⟨-, -, hmemory⟩ := boot_spec h
  rw [hmemory, hdata]
  refine Memory.getElem?_pages_storeBytes _ _ ?_ (fun i hi => absurd hi (Nat.not_lt_zero i))
  exact Memory.getElem?_pages_storeBytes _ _ Std.ExtTreeMap.getElem?_empty hzero

/-- A flat image is a program if and only if it is a row of words and not empty.  Then the text
of the program has the bytes of the image.  When it is booted the image is found in memory from
the configured address on, where each of its words is fetched, and a page on which it has nothing
but zeros does not exist.  The bytes of any text but the empty one are the flat image of that
text. -/
theorem ofFlat?_faithful (bytes : List UInt8) :
    ((∃ p, Program.ofFlat? bytes = .ok p) ↔ 0 < bytes.length ∧ 4 ∣ bytes.length) ∧
    (∀ p, Program.ofFlat? bytes = .ok p → p.textBytes = bytes ∧
      ∀ (c : Config) (m : Machine c.general.xlen), boot c p = .ok m →
        m.memory.loadBytes c.memory.textBase bytes.length = bytes ∧
        (∀ i (hi : i < p.text.length),
          m.memory.load (c.memory.textBase + 4 * i) instructionSize = .ok p.text[i].toNat) ∧
        ∀ k, (∀ i (hi : i < bytes.length),
          Memory.pageOf c.general.xlen (c.memory.textBase + i) = k → bytes[i] = 0) →
            m.memory.pages[k]? = none) ∧
    ∀ q : Program, q.text ≠ [] → ∃ p, Program.ofFlat? q.textBytes = .ok p ∧ p.text = q.text := by
  refine ⟨Program.exists_ofFlat?_iff bytes, fun p hp => ?_, fun q hq => ?_⟩
  · obtain ⟨-, rfl, hflat⟩ := Program.ofFlat?_eq_ok_iff.1 hp
    have hdata : p.data = [] := congrArg Program.data hflat
    refine ⟨rfl, fun c m hm => ?_⟩
    -- A flat image was not linked, so that it lies where the configuration says.
    have hstart : (Setup.place c p).textStart = c.memory.textBase := by
      rw [hflat]
      rfl
    rw [← hstart]
    exact ⟨loadBytes_boot_text hm hdata, fun i hi => load_boot_word hm hdata hi,
      fun k hzero => getElem?_pages_boot hm hdata hzero⟩
  · exact ⟨_, Program.ofFlat?_textBytes hq, rfl⟩

/-- So many zeros, and then the instruction `addi t0, zero, 1`. -/
def sparse (n : Nat) : Program := { text := List.replicate n 0#32 ++ [0x00100293#32] }

/-- Text starts in the middle of the first page. -/
def midPage : Config := { memory := { textBase := 0x800 } }

theorem length_sparse (n : Nat) : (sparse n).text.length = n + 1 := by
  simp [sparse]

theorem getElem_sparse {n : Nat} (h : n < (sparse n).text.length) :
    (sparse n).text[n] = 0x00100293#32 := by
  simp [sparse]

theorem boot_sparse {n : Nat} (hn : n < 0x4000) : ∃ m, boot midPage (sparse n) = .ok m := by
  have hstop : (Setup.place midPage (sparse n)).textStop = 0x800 + (n + 1) * 4 := by
    rw [← length_sparse]
    rfl
  have hclear (segment : Segment) : (Setup.place midPage (sparse n)).heapFault? segment = none := by
    have hroom : (0x10008000 : Nat) < 0x40000000 := by decide
    refine (Setup.heapFault?_eq_none_iff hroom segment).2 fun a ha hheap => ?_
    have hbase : 0x10008000 ≤ a := hheap.1
    cases segment with
    | text =>
      have hlt := ha.2
      omega
    | data => exact absurd ha.2 (Nat.not_lt.2 ha.1)
  exact exists_boot_iff.2 ⟨rfl,
    { textStart_aligned := (by decide : 0x800 % instructionSize = 0)
      textStop_le := by
        rw [hstop]
        show _ ≤ 0xFFFFFFFF
        omega
      dataStop_le := (by decide : 0x10000000 ≤ 0xFFFFFFFF)
      heapFault? := hclear
      entry_inside := by rintro e ⟨⟩ }⟩

/-- Below the instruction there are zeros. -/
theorem getElem_textBytes_sparse {n i : Nat} (hi : i < (sparse n).textBytes.length)
    (hlow : i < 4 * n) : (sparse n).textBytes[i] = 0 := by
  have hword : i / 4 < n := by omega
  have hlength : i / 4 < (sparse n).text.length := by
    rw [length_sparse]
    omega
  have hzero : (sparse n).text[i / 4] = 0 := by
    simp [sparse, hword]
  have hbyte := getElem?_bytesOfWords hlength (Nat.mod_lt i (by decide : 0 < 4))
  rw [Nat.div_add_mod, hzero] at hbyte
  have hbytes : toBytes 4 (0 : BitVec 32).toNat = List.replicate 4 0 := rfl
  rw [hbytes, List.getElem?_replicate, if_pos (Nat.mod_lt i (by decide))] at hbyte
  exact (List.getElem?_eq_some_iff.1 hbyte).2

/-- Text over three pages, the second of which does not exist. -/
theorem ofFlat?_faithful_sparse : ∃ m, Program.ofFlat? (sparse 1536).textBytes = .ok (sparse 1536) ∧
    boot midPage (sparse 1536) = .ok m ∧
    m.memory.loadBytes 0x800 (sparse 1536).textBytes.length = (sparse 1536).textBytes ∧
    m.memory.load 0x2000 instructionSize = .ok 0x00100293 ∧ m.memory.pages[1]? = none := by
  obtain ⟨m, hm⟩ := boot_sparse (by decide : 1536 < 0x4000)
  have hflat : Program.ofFlat? (sparse 1536).textBytes = .ok (sparse 1536) :=
    Program.ofFlat?_textBytes (List.append_ne_nil_of_right_ne_nil _ (by decide))
  obtain ⟨hbytes, hwords, hpages⟩ :=
    ((ofFlat?_faithful (sparse 1536).textBytes).2.1 _ hflat).2 midPage m hm
  refine ⟨m, hflat, hm, hbytes, ?_, hpages 1 fun i hi hpage => getElem_textBytes_sparse hi ?_⟩
  · have hlast : 1536 < (sparse 1536).text.length := by
      rw [length_sparse]
      exact Nat.lt_succ_self _
    have hword := hwords 1536 hlast
    rw [getElem_sparse] at hword
    exact hword
  · have hpage : (0x800 + i) % 4294967296 / 4096 = 1 := hpage
    rw [Program.length_textBytes, Program.textLength, length_sparse, instructionSize] at hi
    omega

end Machine

end Hart
