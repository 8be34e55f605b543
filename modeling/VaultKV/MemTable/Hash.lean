import VaultKV.MemTable
import VaultKV.Lib.Unordered
import VaultKV.Lib.Trace

/-!
# MemTable — the hash table under it (`memtable.cpp`)

`table_` is an `unordered_map`: a loop over it meets the entries in an order
that the library chooses and may change at any time. Both listings copy the
entries in THAT order and sort the copy. Here the table is kept as it is
stored, every order included, and two things are shown.

* `MemTable`, which the engine's model uses, is what the hash table shows:
  equal calls return equal results, whatever the orders (`Shows`).
* The accounting is exact over whole runs of calls, because that of
  `MemTable` is, and a drain hands out what is there (`accounting_exact`).
-/

namespace VaultKV

open Lib

/-- `class MemTable`, with its table in the order a loop meets it. -/
structure HashMemTable where
  memoryBudgetBytes : Nat
  table : Unordered Bytes MemValue := ∅
  approxBytes : Nat := 0

namespace HashMemTable

/-- The common body of `Set` and `Delete`. -/
def put (key : Bytes) (mv : MemValue) (m : HashMemTable) : HashMemTable :=
  let approxBytes :=
    match m.table.lookup key with
    | some old => subU64 m.approxBytes (MemTable.estimateBytesForEntry key old)
    | none => m.approxBytes
  { m with
    table := m.table.insert key mv
    approxBytes := addU64 approxBytes (MemTable.estimateBytesForEntry key mv) }

/-- `MemTable::Set`. -/
def set (key value : Bytes) (seq : Nat) (m : HashMemTable) : Res Nat × HashMemTable :=
  if key = [] then (.error (Status.invalidArgument "key must not be empty"), m)
  else (.ok seq, m.put key { value := value, seq := seq, tombstone := false })

/-- `MemTable::Delete`. -/
def delete (key : Bytes) (seq : Nat) (m : HashMemTable) : Res Nat × HashMemTable :=
  if key = [] then (.error (Status.invalidArgument "key must not be empty"), m)
  else (.ok seq, m.put key { value := [], seq := seq, tombstone := true })

/-- `MemTable::Get`. -/
def get (key : Bytes) (m : HashMemTable) : Res MemValue :=
  match m.table.lookup key with
  | none => .error (Status.notFound "key not found")
  | some v => .ok v

/-- `MemTable::SnapshotSorted`: the loop over the table, then the sort. -/
def snapshotSorted (includeTombstones : Bool) (m : HashMemTable) : List (Bytes × MemValue) :=
  Unordered.sortByKey (m.table.pairs.filter fun e => includeTombstones || !e.2.tombstone)

/-- `MemTable::DrainSorted`. -/
def drainSorted (includeTombstones : Bool) (m : HashMemTable) :
    List (Bytes × MemValue) × HashMemTable :=
  (m.snapshotSorted includeTombstones, { m with table := ∅, approxBytes := 0 })

end HashMemTable

/-- A call that changes the table, or a change of the order in it. -/
inductive MemCall where
  | set (key value : Bytes) (seq : Nat)
  | delete (key : Bytes) (seq : Nat)
  | drainSorted (includeTombstones : Bool)
  | reorder (order : List (Σ _ : Bytes, MemValue))

namespace HashMemTable

def call : MemCall → HashMemTable → HashMemTable
  | .set key value seq, m => (m.set key value seq).2
  | .delete key seq, m => (m.delete key seq).2
  | .drainSorted includeTombstones, m => (m.drainSorted includeTombstones).2
  | .reorder order, m => { m with table := m.table.reorder order }

/-- The table after calls. -/
def run (memoryBudgetBytes : Nat) (calls : List MemCall) : HashMemTable :=
  runAlong call calls { memoryBudgetBytes := memoryBudgetBytes }

/-! ## What the table shows -/

/-- `MemTable` is what can be seen of the hash table: its lookups, without
the order. -/
structure Shows (h : HashMemTable) (m : MemTable) : Prop where
  budget : m.memoryBudgetBytes = h.memoryBudgetBytes
  approx : m.approxBytes = h.approxBytes
  find : ∀ k, m.table.find k = h.table.lookup k

namespace Shows

variable {h : HashMemTable} {m : MemTable}

theorem put (hs : h.Shows m) (key : Bytes) (mv : MemValue) :
    (h.put key mv).Shows (m.put key mv) where
  budget := hs.budget
  approx := by
    cases hold : h.table.lookup key with
    | none => simp [HashMemTable.put, MemTable.put, hs.find key, hs.approx, hold]
    | some old => simp [HashMemTable.put, MemTable.put, hs.find key, hs.approx, hold]
  find := by
    intro k
    show (m.table.insert key mv).find k = (h.table.insert key mv).lookup k
    rw [SortedMap.find_insert]
    by_cases hk : k = key
    · rw [if_pos hk, hk, AList.lookup_insert]
    · rw [if_neg hk, AList.lookup_insert_ne hk, hs.find k]

theorem get (hs : h.Shows m) (key : Bytes) : h.get key = m.get key := by
  cases hold : h.table.lookup key with
  | none => simp [HashMemTable.get, MemTable.get, hs.find key, hold]
  | some old => simp [HashMemTable.get, MemTable.get, hs.find key, hold]

theorem snapshotSorted (hs : h.Shows m) (includeTombstones : Bool) :
    h.snapshotSorted includeTombstones = m.snapshotSorted includeTombstones :=
  Unordered.sortByKey_filter hs.find _

/-- `Set` and `Delete` refuse the empty key and put any other. -/
theorem write (hs : h.Shows m) (key : Bytes) (mv : MemValue) (seq : Nat) (refused : Res Nat) :
    (if key = [] then (refused, h) else (.ok seq, h.put key mv)).1
        = (if key = [] then (refused, m) else (.ok seq, m.put key mv)).1 ∧
      (if key = [] then (refused, h) else (.ok seq, h.put key mv)).2.Shows
        (if key = [] then (refused, m) else (.ok seq, m.put key mv)).2 := by
  by_cases hkey : key = []
  · rw [if_pos hkey, if_pos hkey]
    exact ⟨rfl, hs⟩
  · rw [if_neg hkey, if_neg hkey]
    exact ⟨rfl, hs.put key mv⟩

theorem set (hs : h.Shows m) (key value : Bytes) (seq : Nat) :
    (h.set key value seq).1 = (m.set key value seq).1 ∧
      (h.set key value seq).2.Shows (m.set key value seq).2 :=
  hs.write key ⟨value, seq, false⟩ seq _

theorem delete (hs : h.Shows m) (key : Bytes) (seq : Nat) :
    (h.delete key seq).1 = (m.delete key seq).1 ∧
      (h.delete key seq).2.Shows (m.delete key seq).2 :=
  hs.write key ⟨[], seq, true⟩ seq _

theorem drainSorted (hs : h.Shows m) (includeTombstones : Bool) :
    (h.drainSorted includeTombstones).1 = (m.drainSorted includeTombstones).1 ∧
      (h.drainSorted includeTombstones).2.Shows (m.drainSorted includeTombstones).2 :=
  ⟨hs.snapshotSorted includeTombstones, hs.budget, rfl, fun _ => rfl⟩

theorem reorder (hs : h.Shows m) (order : List (Σ _ : Bytes, MemValue)) :
    (h.call (.reorder order)).Shows m where
  budget := hs.budget
  approx := hs.approx
  find := by
    intro k
    rw [hs.find k]
    exact (Unordered.lookup_reorder order h.table k).symm

end Shows

end HashMemTable

/-- The same calls on the table that is seen; it has no order. -/
def MemTable.call : MemCall → MemTable → MemTable
  | .set key value seq, m => (m.set key value seq).2
  | .delete key seq, m => (m.delete key seq).2
  | .drainSorted includeTombstones, m => (m.drainSorted includeTombstones).2
  | .reorder _, m => m

theorem MemTable.Exact.call {m : MemTable} (h : m.Exact) (c : MemCall) : (m.call c).Exact := by
  cases c with
  | set key value seq => exact h.set key value seq
  | delete key seq => exact h.delete key seq
  | drainSorted includeTombstones => exact exact_of_empty rfl rfl
  | reorder order => exact h

namespace HashMemTable

theorem Shows.call {h : HashMemTable} {m : MemTable} (hs : h.Shows m) (c : MemCall) :
    (h.call c).Shows (m.call c) := by
  cases c with
  | set key value seq => exact (hs.set key value seq).2
  | delete key seq => exact (hs.delete key seq).2
  | drainSorted includeTombstones => exact (hs.drainSorted includeTombstones).2
  | reorder order => exact hs.reorder order

/-- **The engine's table is what the hash table shows**, after any calls and in
any order: lookups and listings agree. -/
theorem shows_run (memoryBudgetBytes : Nat) (calls : List MemCall) :
    (run memoryBudgetBytes calls).Shows
      (runAlong MemTable.call calls { memoryBudgetBytes := memoryBudgetBytes }) := by
  have hstep : ∀ (cs : List MemCall) {h : HashMemTable} {m : MemTable}, h.Shows m →
      (runAlong call cs h).Shows (runAlong MemTable.call cs m) := by
    intro cs
    induction cs with
    | nil => intro h m hs; exact hs
    | cons c cs ih => intro h m hs; exact ih (hs.call c)
  exact hstep calls ⟨rfl, rfl, fun _ => rfl⟩

/-! ## The accounting -/

/-- What the entries weigh together. -/
def weight (m : HashMemTable) : Nat :=
  (m.table.pairs.map fun e => MemTable.estimateBytesForEntry e.1 e.2).sum

/-- The same entries weigh the same. -/
theorem Shows.weight {h : HashMemTable} {m : MemTable} (hs : h.Shows m) :
    m.weight = h.weight :=
  ((Unordered.entries_perm_pairs hs.find).map _).sum_eq

/-- **The counter is the weight**, as far as a `size_t` goes: it is so in the
table that is seen, and both the counter and the weight can be seen. -/
theorem approxBytes_run (memoryBudgetBytes : Nat) (calls : List MemCall) :
    (run memoryBudgetBytes calls).approxBytes
      = (run memoryBudgetBytes calls).weight % 2 ^ 64 := by
  have hshows := shows_run memoryBudgetBytes calls
  have hexact := runAlong_keeps (I := MemTable.Exact) (fun c _ h => h.call c) calls
    (MemTable.exact_of_empty (m := { memoryBudgetBytes := memoryBudgetBytes }) rfl rfl)
  rw [← hshows.approx, ← hshows.weight]
  exact hexact

variable {m : HashMemTable}

/-- An entry weighs no more than all. -/
theorem estimate_le_weight {key : Bytes} {old : MemValue} (h : m.table.lookup key = some old) :
    MemTable.estimateBytesForEntry key old ≤ m.weight := by
  apply List.le_sum_of_mem
  exact List.mem_map.mpr ⟨(key, old), Unordered.mem_pairs.mpr h, rfl⟩

/-- With its tombstones, a listing is the whole table. -/
theorem snapshotSorted_true_perm (m : HashMemTable) :
    (m.snapshotSorted true).Perm m.table.pairs := by
  have hall : m.table.pairs.filter (fun e => true || !e.2.tombstone) = m.table.pairs := by
    simp
  rw [snapshotSorted, hall]
  exact Unordered.sortByKey_perm _

theorem snapshotSorted_sorted (includeTombstones : Bool) (m : HashMemTable) :
    (m.snapshotSorted includeTombstones).Pairwise fun a b => a.1 < b.1 :=
  Unordered.sortByKey_sorted (m.table.pairs_keys_ne.filter _)

/-- **The accounting is exact.** After any calls of `Set`, `Delete` and
`DrainSorted`, in whatever orders the table is kept, while its entries weigh
less than `2 ^ 64`: the counter is their weight, so that no overwrite
subtracts more than there is, and `DrainSorted(true)` hands out every entry
once, in strictly ascending key order, and leaves nothing. -/
theorem accounting_exact (memoryBudgetBytes : Nat) (calls : List MemCall)
    (hfits : (run memoryBudgetBytes calls).weight < 2 ^ 64) :
    (run memoryBudgetBytes calls).approxBytes = (run memoryBudgetBytes calls).weight ∧
    (∀ key old, (run memoryBudgetBytes calls).table.lookup key = some old →
      MemTable.estimateBytesForEntry key old ≤ (run memoryBudgetBytes calls).approxBytes) ∧
    ((run memoryBudgetBytes calls).drainSorted true).1.Perm
      (run memoryBudgetBytes calls).table.pairs ∧
    ((run memoryBudgetBytes calls).drainSorted true).1.Pairwise (fun a b => a.1 < b.1) ∧
    ((run memoryBudgetBytes calls).drainSorted true).2.table = ∅ ∧
    ((run memoryBudgetBytes calls).drainSorted true).2.approxBytes = 0 := by
  have hexact : (run memoryBudgetBytes calls).approxBytes
      = (run memoryBudgetBytes calls).weight :=
    (approxBytes_run memoryBudgetBytes calls).trans (Nat.mod_eq_of_lt hfits)
  refine ⟨hexact, ?_, snapshotSorted_true_perm _, snapshotSorted_sorted true _, rfl, rfl⟩
  intro key old hold
  rw [hexact]
  exact estimate_le_weight hold

/-- A value is overwritten by a tombstone and the table is met in another
order. -/
def overwritten : List MemCall :=
  [.set [98] [1, 2, 3] 1, .set [97] [4] 2, .delete [98] 3,
   .reorder [⟨[97], ⟨[4], 2, false⟩⟩, ⟨[98], ⟨[], 3, true⟩⟩]]

theorem overwritten_exact :
    (run 0 overwritten).weight < 2 ^ 64 ∧
    (run 0 overwritten).approxBytes = (run 0 overwritten).weight := by
  have hfits : (run 0 overwritten).weight < 2 ^ 64 := by decide +kernel
  exact ⟨hfits, (accounting_exact 0 overwritten hfits).1⟩

end HashMemTable

end VaultKV
