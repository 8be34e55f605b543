import VaultKV.Util
import VaultKV.Lib.Lsm

/-!
# MemTable — the mutable table (`memtable.h`, `memtable.cpp`)

An `unordered_map` from keys to versions with a running estimate of its
size. The map's own order never shows: both listings of it are sorted by
key before they are handed out, so it is a `SortedMap` here. The estimate
is a `size_t` and wraps.
-/

namespace VaultKV

open Lib

/-- `struct MemValue`. -/
abbrev MemValue := Version Bytes

/-- `sizeof(MemValue)`: a string, a 64-bit number and a flag, padded. -/
def sizeofMemValue : Nat := 48

/-- `class MemTable`. -/
structure MemTable where
  memoryBudgetBytes : Nat
  table : Table Bytes Bytes := SortedMap.empty
  approxBytes : Nat := 0
  deriving DecidableEq

namespace MemTable

def estimateBytesForEntry (key : Bytes) (value : MemValue) : Nat :=
  sizeofMemValue + key.length + value.value.length

/-- The common body of `Set` and `Delete`. -/
def put (key : Bytes) (mv : MemValue) (m : MemTable) : MemTable :=
  let approxBytes :=
    match m.table.find key with
    | some old => subU64 m.approxBytes (estimateBytesForEntry key old)
    | none => m.approxBytes
  { m with
    table := m.table.insert key mv
    approxBytes := addU64 approxBytes (estimateBytesForEntry key mv) }

/-- `MemTable::Set`. -/
def set (key value : Bytes) (seq : Nat) (m : MemTable) : Res Nat × MemTable :=
  if key = [] then (.error (Status.invalidArgument "key must not be empty"), m)
  else (.ok seq, m.put key { value := value, seq := seq, tombstone := false })

/-- `MemTable::Delete`. -/
def delete (key : Bytes) (seq : Nat) (m : MemTable) : Res Nat × MemTable :=
  if key = [] then (.error (Status.invalidArgument "key must not be empty"), m)
  else (.ok seq, m.put key { value := [], seq := seq, tombstone := true })

/-- `MemTable::Get`. -/
def get (key : Bytes) (m : MemTable) : Res MemValue :=
  match m.table.find key with
  | none => .error (Status.notFound "key not found")
  | some v => .ok v

/-- `MemTable::SnapshotSorted`. -/
def snapshotSorted (includeTombstones : Bool) (m : MemTable) : List (Bytes × MemValue) :=
  m.table.entries.filter fun e => includeTombstones || !e.2.tombstone

/-- `MemTable::DrainSorted`. -/
def drainSorted (includeTombstones : Bool) (m : MemTable) :
    List (Bytes × MemValue) × MemTable :=
  (m.snapshotSorted includeTombstones,
   { m with table := SortedMap.empty, approxBytes := 0 })

def approxMemory (m : MemTable) : Nat := m.approxBytes

def memoryBudget (m : MemTable) : Nat := m.memoryBudgetBytes

@[simp] theorem snapshotSorted_true (m : MemTable) :
    m.snapshotSorted true = m.table.entries := by
  simp [snapshotSorted]

@[simp] theorem table_put (key : Bytes) (mv : MemValue) (m : MemTable) :
    (m.put key mv).table = m.table.insert key mv := rfl

theorem set_of_ne_nil {key : Bytes} (h : key ≠ []) (value : Bytes) (seq : Nat)
    (m : MemTable) : m.set key value seq = (.ok seq, m.put key ⟨value, seq, false⟩) :=
  if_neg h

theorem delete_of_ne_nil {key : Bytes} (h : key ≠ []) (seq : Nat) (m : MemTable) :
    m.delete key seq = (.ok seq, m.put key ⟨[], seq, true⟩) :=
  if_neg h

@[simp] theorem memoryBudget_set (key value : Bytes) (seq : Nat) (m : MemTable) :
    (m.set key value seq).2.memoryBudget = m.memoryBudget := by
  rw [set]
  split <;> rfl

@[simp] theorem memoryBudget_delete (key : Bytes) (seq : Nat) (m : MemTable) :
    (m.delete key seq).2.memoryBudget = m.memoryBudget := by
  rw [delete]
  split <;> rfl

/-! ## The accounting -/

/-- What the entries weigh together. -/
def weight (m : MemTable) : Nat :=
  (m.table.entries.map fun x => estimateBytesForEntry x.1 x.2).sum

/-- The running estimate is the weight. -/
def Exact (m : MemTable) : Prop := m.approxBytes = m.weight % 2 ^ 64

theorem weight_put (key : Bytes) (mv : MemValue) (m : MemTable) :
    (m.put key mv).weight + ((m.table.find key).elim 0 fun old => estimateBytesForEntry key old)
      = m.weight + estimateBytesForEntry key mv :=
  SortedMap.sum_insert (fun x => estimateBytesForEntry x.1 x.2) m.table key mv

/-- **An overwrite** takes out what it put in: the subtraction and the
addition may wrap, but not their sum. -/
theorem Exact.put {m : MemTable} (h : m.Exact) (key : Bytes) (mv : MemValue) :
    (m.put key mv).Exact := by
  have hput := m.weight_put key mv
  rw [Exact] at h ⊢
  generalize (m.put key mv).weight = after at hput ⊢
  rw [MemTable.put]
  cases hfind : m.table.find key with
  | none =>
      simp only [hfind, Option.elim_none, addU64] at hput ⊢
      omega
  | some old =>
      simp only [hfind, Option.elim_some, addU64, subU64] at hput ⊢
      omega

theorem Exact.set {m : MemTable} (h : m.Exact) (key value : Bytes) (seq : Nat) :
    (m.set key value seq).2.Exact := by
  by_cases hkey : key = []
  · rw [MemTable.set, if_pos hkey]
    exact h
  · rw [set_of_ne_nil hkey]
    exact h.put key _

theorem Exact.delete {m : MemTable} (h : m.Exact) (key : Bytes) (seq : Nat) :
    (m.delete key seq).2.Exact := by
  by_cases hkey : key = []
  · rw [MemTable.delete, if_pos hkey]
    exact h
  · rw [delete_of_ne_nil hkey]
    exact h.put key _

theorem exact_of_empty {m : MemTable} (ht : m.table = SortedMap.empty)
    (hb : m.approxBytes = 0) : m.Exact := by
  rw [Exact, hb, weight, ht]
  rfl

end MemTable

end VaultKV
