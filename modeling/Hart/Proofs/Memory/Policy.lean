/-
Memory under another alignment policy.

The policy says which accesses are refused, and nothing else depends on it.

* `Memory.withAligned` — the same pages under another policy;
* `storeBytes_withAligned`, `zero_withAligned`, `copy_withAligned` — writing bytes and
  changing the policy can be done in either order;
* `load_lenient`, `store_lenient` — an access is carried out alike whatever the policy,
  unless it is refused.

Design notes: a refusal is the only error of a memory, so leaving the policy away never
brings a new one.
-/
import Hart.Memory.Bulk

namespace Hart.Memory

variable {x : Xlen}

/-- The memory under another alignment policy. -/
def withAligned (m : Memory x) (aligned : Bool) : Memory x :=
  { m with aligned := aligned }

/-- The memory without an alignment policy. -/
def lenient (m : Memory x) : Memory x :=
  m.withAligned false

variable (m : Memory x) (b : Bool)

@[simp] theorem pages_withAligned : (m.withAligned b).pages = m.pages := rfl

@[simp] theorem aligned_withAligned : (m.withAligned b).aligned = b := rfl

@[simp] theorem withAligned_withAligned (b' : Bool) :
    (m.withAligned b).withAligned b' = m.withAligned b' := rfl

@[simp] theorem loadByte_withAligned (a : Nat) : (m.withAligned b).loadByte a = m.loadByte a := rfl

@[simp] theorem splitLoad_withAligned (a size : Nat) :
    (m.withAligned b).splitLoad a size = m.splitLoad a size := rfl

@[simp] theorem loadBytes_withAligned (a length : Nat) :
    (m.withAligned b).loadBytes a length = m.loadBytes a length := rfl

theorem storeSequence_withAligned (a : Nat) (bytes : List UInt8) :
    (m.withAligned b).storeSequence a bytes = (m.storeSequence a bytes).withAligned b := by
  induction bytes generalizing m a with
  | nil => rfl
  | cons v rest ih => exact ih (m.storeByte a v) (a + 1)

theorem splitStore_withAligned (a size v : Nat) :
    (m.withAligned b).splitStore a size v = (m.splitStore a size v).withAligned b :=
  m.storeSequence_withAligned b a _

theorem storeSlices_withAligned (pieces : List Slice) (bytes : List UInt8) :
    (m.withAligned b).storeSlices pieces bytes = (m.storeSlices pieces bytes).withAligned b := by
  induction pieces generalizing m bytes with
  | nil => rfl
  | cons s rest ih => exact ih (m.storeSlice s (bytes.take s.count)) (bytes.drop s.count)

theorem storeBytes_withAligned (a : Nat) (bytes : List UInt8) :
    (m.withAligned b).storeBytes a bytes = (m.storeBytes a bytes).withAligned b :=
  m.storeSlices_withAligned b _ bytes

theorem zero_withAligned (a length : Nat) :
    (m.withAligned b).zero a length = (m.zero a length).withAligned b :=
  List.foldl_hom (withAligned · b) fun _ _ => rfl

theorem copyChunk_withAligned (target source length k : Nat) :
    copyChunk target source length (m.withAligned b) k =
      (copyChunk target source length m k).withAligned b :=
  m.storeBytes_withAligned b _ _

theorem copy_withAligned (target source length : Nat) :
    (m.withAligned b).copy target source length = (m.copy target source length).withAligned b :=
  List.foldl_hom (withAligned · b) fun m k => m.copyChunk_withAligned b target source length k

/-- Without a policy no load is refused. -/
theorem load_lenient (a size : Nat) : m.lenient.load a size = .ok (m.splitLoad a size) := by
  have hnone : m.lenient.alignmentError? a size = none := if_neg fun h => nomatch h.1
  rw [load_eq, hnone]
  rfl

theorem store_lenient (a size v : Nat) :
    m.lenient.store a size v = .ok (m.splitStore a size v).lenient := by
  have hnone : m.lenient.alignmentError? a size = none := if_neg fun h => nomatch h.1
  rw [store, hnone]
  exact congrArg Except.ok (m.splitStore_withAligned false a size v)

/-- A load that is not refused answers as without a policy. -/
theorem eq_of_load {a size v : Nat} (h : m.load a size = .ok v) : v = m.splitLoad a size := by
  rw [load_eq] at h
  split at h
  · cases h
  · exact (Except.ok.inj h).symm

/-- What is read without a policy is read under any, or refused. -/
theorem load_eq_or_error {a size v : Nat} (h : m.lenient.load a size = .ok v) :
    m.load a size = .ok v ∨ ∃ e, m.load a size = .error e := by
  rw [load_lenient] at h
  cases hload : m.load a size with
  | error e => exact .inr ⟨e, rfl⟩
  | ok w =>
    rw [m.eq_of_load hload]
    exact .inl h

theorem eq_of_store {a size v : Nat} {m' : Memory x} (h : m.store a size v = .ok m') :
    m' = m.splitStore a size v := by
  rw [store] at h
  split at h
  · cases h
  · exact (Except.ok.inj h).symm

end Hart.Memory
