import VaultKV.Engine.Order
import VaultKV.Lib.Trace

/-!
# Engine — the memtable's budget

The accounting is EXACT: in every state of every run `approx_bytes_` is the
weight of the entries that are there, modulo the width of a `size_t`
(`MemTable.Exact`). What is not kept is the bound. `Set` compares with the budget and flushes;
`Delete` writes a tombstone, which weighs 48 bytes and its key, and
compares with nothing.
-/

namespace VaultKV

open Lib

/-! ## The weight of a tombstone -/

namespace MemTable

/-- What the entries weigh once `key` has a tombstone instead of what it
has now. -/
def weightOfDelete (key : Bytes) (m : MemTable) : Nat :=
  m.weight - ((m.table.find key).elim 0 fun old => estimateBytesForEntry key old)
    + (sizeofMemValue + key.length)

theorem weight_delete (key : Bytes) (seq : Nat) (m : MemTable) :
    (m.put key ⟨[], seq, true⟩).weight = m.weightOfDelete key := by
  have hput := m.weight_put key ⟨[], seq, true⟩
  have hnew : estimateBytesForEntry key ⟨[], seq, true⟩ = sizeofMemValue + key.length := rfl
  rw [weightOfDelete]
  cases hfind : m.table.find key with
  | none =>
      simp only [hfind, Option.elim_none] at hput ⊢
      omega
  | some old =>
      -- the entry that goes is one of those weighed
      have hmem := List.mem_map_of_mem (f := fun x => estimateBytesForEntry x.1 x.2)
        (SortedMap.find_eq_some_iff.mp hfind)
      have hle : estimateBytesForEntry key old ≤ m.weight := List.le_sum_of_mem hmem
      simp only [hfind, Option.elim_some] at hput ⊢
      omega

end MemTable

/-! ## Along a run -/

namespace Engine

variable {cfg : Config}

/-- The accounting is exact and the budget is the configured one. -/
structure Budgeted (cfg : Config) (e : Engine) : Prop where
  exact : e.memtable.Exact
  budget : e.memtable.memoryBudget = cfg.opts.memtableBudgetBytes

/-- Flushing empties the memtable first, whatever comes of it. -/
theorem memtable_flush (io : FlushIo cfg.cipher) {e : Engine} (hopen : e.isOpen = true) :
    (e.flushMemTable cfg io).2.memtable = (e.memtable.drainSorted true).2 := by
  have hdrain := (buildAndInstall_parts cfg io e).memtable
  rw [flushMemTable, if_neg (by rw [hopen]; decide)]
  rcases hb : e.buildAndInstall cfg io with ⟨res, e'⟩
  rw [hb] at hdrain
  match res with
  | .error err => exact hdrain
  | .ok none => exact hdrain
  | .ok (some path) => exact (maybeCompact_parts cfg io.compact e').memtable.trans hdrain

theorem Budgeted.flush {e : Engine} (h : e.Budgeted cfg) (io : FlushIo cfg.cipher) :
    (e.flushMemTable cfg io).2.Budgeted cfg := by
  by_cases hopen : e.isOpen = true
  · have hdrain := memtable_flush io hopen
    refine ⟨?_, by rw [hdrain]; exact h.budget⟩
    rw [hdrain]
    exact MemTable.exact_of_empty rfl rfl
  · rw [flushMemTable, if_pos (Bool.not_eq_true _ ▸ hopen)]
    exact h

theorem Budgeted.applySet {e : Engine} (h : e.Budgeted cfg) (io : FlushIo cfg.cipher)
    (key value : Bytes) (seq : Nat) : (e.applySet cfg io key value seq).2.Budgeted cfg := by
  have hset := h.exact.set key value seq
  have hbudget := (MemTable.memoryBudget_set key value seq e.memtable).trans h.budget
  rw [Engine.applySet]
  rcases hm : e.memtable.set key value seq with ⟨res, m⟩
  rw [hm] at hset hbudget
  have hnew : ({ e with memtable := m } : Engine).Budgeted cfg := ⟨hset, hbudget⟩
  cases res with
  | error err => exact hnew
  | ok n =>
      dsimp only
      split
      · have hflush := hnew.flush io
        rcases hf : ({ e with memtable := m } : Engine).flushMemTable cfg io with ⟨res', e'⟩
        rw [hf] at hflush
        cases res' <;> exact hflush
      · exact hnew

theorem Budgeted.applyDelete {e : Engine} (h : e.Budgeted cfg) (key : Bytes) (seq : Nat) :
    (e.applyDelete key seq).2.Budgeted cfg := by
  exact ⟨h.exact.delete key seq,
    (MemTable.memoryBudget_delete key seq e.memtable).trans h.budget⟩

theorem Budgeted.of_memtable {e e' : Engine} (h : e.Budgeted cfg)
    (heq : e'.memtable = e.memtable) : e'.Budgeted cfg :=
  ⟨by rw [heq]; exact h.exact, by rw [heq]; exact h.budget⟩

theorem Budgeted.set {e : Engine} (h : e.Budgeted cfg) (io : WriteIo cfg.cipher)
    (key value : Bytes) : (e.set cfg io key value).2.Budgeted cfg := by
  apply (set_writes cfg io key value e).keeps (P := Budgeted cfg) h
  · intro seq w _
    exact h.of_memtable rfl
  · intro seq w _ hw
    exact hw.applySet io.flush key value seq

theorem Budgeted.delete {e : Engine} (h : e.Budgeted cfg) (io : WriteIo cfg.cipher)
    (key : Bytes) : (e.delete cfg io key).2.Budgeted cfg := by
  apply (delete_writes cfg io key e).keeps (P := Budgeted cfg) h
  · intro seq w _
    exact h.of_memtable rfl
  · intro seq w _ hw
    exact hw.applyDelete key seq

theorem Budgeted.replayWal {e : Engine} (h : e.Budgeted cfg) :
    (e.replayWal cfg).2.Budgeted cfg := by
  have hkeep : ∀ (m : MemTable) (rec : WalRecord), rec.seq < 2 ^ 64 →
      m.Exact ∧ m.memoryBudget = cfg.opts.memtableBudgetBytes →
      (replayRecord m rec).2.Exact ∧
        (replayRecord m rec).2.memoryBudget = cfg.opts.memtableBudgetBytes := by
    rintro m rec - hm
    unfold replayRecord
    split
    · exact ⟨hm.1.set _ _ _, (MemTable.memoryBudget_set _ _ _ m).trans hm.2⟩
    · exact ⟨hm.1.delete _ _, (MemTable.memoryBudget_delete _ _ m).trans hm.2⟩
    · exact hm
  obtain ⟨hexact, hbudget⟩ := Wal.replay_invariant (P := fun m : MemTable => m.Exact ∧
    m.memoryBudget = cfg.opts.memtableBudgetBytes) hkeep ⟨h.exact, h.budget⟩
  exact ⟨hexact, hbudget⟩

theorem memtable_loadSstablesFromDisk (io : OpenIo) (e : Engine) :
    (loadSstablesFromDisk io e).2.memtable = e.memtable := by
  unfold loadSstablesFromDisk
  split <;> rfl

theorem Budgeted.open {e : Engine} (h : e.Budgeted cfg) (io : OpenIo) :
    (e.open cfg io).2.Budgeted cfg := by
  unfold Engine.open
  split
  · exact h
  · split
    · exact h
    · split
      · exact h
      · split
        · exact h.of_memtable rfl
        · rename_i wal hwal
          have hload := h.of_memtable
            (memtable_loadSstablesFromDisk io { e with wal := wal })
          split
          · rename_i hl; rw [hl] at hload; exact hload
          · rename_i hl
            rw [hl] at hload
            have hreplay := hload.replayWal
            split
            · rename_i hr; rw [hr] at hreplay; exact hreplay
            · rename_i hr
              rw [hr] at hreplay
              exact hreplay.of_memtable rfl

theorem Budgeted.boot (e : Engine) : (e.boot cfg).Budgeted cfg :=
  ⟨MemTable.exact_of_empty rfl rfl, rfl⟩

/-- **One step keeps the accounting.** -/
theorem Budgeted.act {e : Engine} (h : e.Budgeted cfg) (a : Act cfg.cipher) :
    (e.act cfg a).Budgeted cfg := by
  cases a with
  | op o =>
      cases o with
      | set io key value => exact h.set io key value
      | delete io key => exact h.delete io key
      | flush io => exact h.flush io
      | compact io => exact h.of_memtable (maybeCompact_parts cfg io e).memtable
  | close io =>
      refine h.of_memtable ?_
      rw [Engine.act, Engine.close]
      split <;> rfl
  | reopen io => exact h.open io
  | restart io => exact (Budgeted.boot e).open io

/-! ## After a write -/

/-- The memtable is below its budget. -/
def Below (e : Engine) : Prop := e.memtable.approxMemory < e.memtable.memoryBudget

instance (e : Engine) : Decidable e.Below := inferInstanceAs (Decidable (_ < _))

/-- The last part of a `Set` compares with the budget, or flushes. -/
theorem Budgeted.below_of_applySet {e : Engine} {io : FlushIo cfg.cipher} {key value : Bytes}
    {seq : Nat} (h : (e.applySet cfg io key value seq).2.Budgeted cfg)
    (hpos : 0 < cfg.opts.memtableBudgetBytes) (hopen : e.isOpen = true) (hkey : key ≠ [])
    (hok : (e.applySet cfg io key value seq).1.isOk = true) :
    (e.applySet cfg io key value seq).2.Below := by
  simp only [Engine.applySet, MemTable.set_of_ne_nil hkey] at h hok ⊢
  generalize e.memtable.put key ⟨value, seq, false⟩ = m at h hok ⊢
  by_cases hfull : m.memoryBudget ≤ m.approxMemory
  · rw [if_pos hfull] at h hok ⊢
    have hdrain := memtable_flush io (e := { e with memtable := m }) hopen
    rcases hf : ({ e with memtable := m } : Engine).flushMemTable cfg io with ⟨res, e'⟩
    rw [hf] at h hok hdrain
    cases res with
    | error err => cases hok
    | ok n =>
        have hbudget := h.budget
        have hzero : e'.memtable.approxMemory = 0 := by
          rw [hdrain]
          rfl
        dsimp only at hbudget
        rw [Below, hzero, hbudget]
        exact hpos
  · rw [if_neg hfull]
    exact Nat.lt_of_not_le hfull

/-- **A successful `Set` leaves room**: the memtable it leaves was compared
with the budget or flushed. -/
theorem Budgeted.below_of_set {e : Engine} (h : e.Budgeted cfg)
    (hpos : 0 < cfg.opts.memtableBudgetBytes) {io : WriteIo cfg.cipher} {key value : Bytes}
    (hok : (e.set cfg io key value).1.isOk = true) : (e.set cfg io key value).2.Below := by
  cases set_writes cfg io key value e with
  | refused err _ hout =>
      rw [hout] at hok
      cases hok
  | unreplicated seq w err _ _ hout =>
      rw [hout] at hok
      cases hok
  | applied seq w n hrec _ hout =>
      have hw : ({ e with wal := w } : Engine).Budgeted cfg := h.of_memtable rfl
      have hnew := hw.applySet io.flush key value seq
      rw [hout] at hok ⊢
      exact hnew.below_of_applySet hpos hrec.isOpen hrec.key_ne hok

/-- **A successful `Delete`** leaves exactly the weight of its tombstone
and of the other keys' entries. -/
theorem Budgeted.below_of_delete_iff {e : Engine} (h : e.Budgeted cfg)
    {io : WriteIo cfg.cipher} {key : Bytes} (hok : (e.delete cfg io key).1.isOk = true) :
    (e.delete cfg io key).2.Below ↔
      e.memtable.weightOfDelete key % 2 ^ 64 < cfg.opts.memtableBudgetBytes := by
  have hnew := h.delete io key
  rw [Below, hnew.budget, MemTable.approxMemory, hnew.exact]
  suffices hw : (e.delete cfg io key).2.memtable.weight = e.memtable.weightOfDelete key by
    rw [hw]
  cases delete_writes cfg io key e with
  | refused err _ hout =>
      rw [hout] at hok
      cases hok
  | unreplicated seq w err _ _ hout =>
      rw [hout] at hok
      cases hok
  | applied seq w n hrec _ hout =>
      rw [hout, Engine.applyDelete, MemTable.delete_of_ne_nil hrec.key_ne]
      exact MemTable.weight_delete key seq e.memtable

section

variable (cfg)

/-- A `Set` or `Delete` that returns `Ok` leaves the memtable below its
budget. -/
def WritesBelow (a : Act cfg.cipher) (e : Engine) : Prop :=
  match a with
  | .op (.set io key value) =>
      (e.set cfg io key value).1.isOk = true → (e.set cfg io key value).2.Below
  | .op (.delete io key) =>
      (e.delete cfg io key).1.isOk = true → (e.delete cfg io key).2.Below
  | _ => True

/-- There is room for the tombstone of a `Delete` that goes through. -/
def DeletesFit (a : Act cfg.cipher) (e : Engine) : Prop :=
  match a with
  | .op (.delete io key) =>
      (e.delete cfg io key).1.isOk = true →
        e.memtable.weightOfDelete key % 2 ^ 64 < cfg.opts.memtableBudgetBytes
  | _ => True

instance (a : Act cfg.cipher) (e : Engine) : Decidable (DeletesFit cfg a e) :=
  match a with
  | .op (.delete _ _) => inferInstanceAs (Decidable (_ → _))
  | .op (.set _ _ _) => isTrue trivial
  | .op (.flush _) => isTrue trivial
  | .op (.compact _) => isTrue trivial
  | .close _ => isTrue trivial
  | .reopen _ => isTrue trivial
  | .restart _ => isTrue trivial

end

theorem Budgeted.writesBelow_iff {e : Engine} (h : e.Budgeted cfg)
    (hpos : 0 < cfg.opts.memtableBudgetBytes) (a : Act cfg.cipher) :
    WritesBelow cfg a e ↔ DeletesFit cfg a e := by
  match a with
  | .op (.set io key value) => exact ⟨fun _ => trivial, fun _ => h.below_of_set hpos⟩
  | .op (.delete io key) => exact forall_congr' fun hok => h.below_of_delete_iff hok
  | .op (.flush _) => exact Iff.rfl
  | .op (.compact _) => exact Iff.rfl
  | .close _ => exact Iff.rfl
  | .reopen _ => exact Iff.rfl
  | .restart _ => exact Iff.rfl

end Engine

/-- **The budget holds exactly when every tombstone fits.** For every
positive budget, every data directory a process is started on, and every
run of operations, `Close`, `Open` and restarts on it, whatever fails on the
way: after every `Set` or `Delete` that returned `Ok` the memtable is below
its budget, if and only if at every such `Delete` the entries of the other
keys and the tombstone weigh less than the budget. -/
theorem memtable_below_budget_iff {cfg : Config}
    (hpos : 0 < cfg.opts.memtableBudgetBytes) (disk : Engine) (as : List (Act cfg.cipher)) :
    Along (Engine.act cfg) (Engine.WritesBelow cfg) as (disk.boot cfg) ↔
      Along (Engine.act cfg) (Engine.DeletesFit cfg) as (disk.boot cfg) :=
  along_congr (I := Engine.Budgeted cfg) (fun a _ h => h.act a)
    (fun a _ h => h.writesBelow_iff hpos a) as (Engine.Budgeted.boot disk)

/-- A `Delete` that fits, and a `Set` that flushes. -/
def deleteWithRoom : List (Act (smallConfig 100).cipher) :=
  [.reopen {}, .op (Small.set 100 97 1), .op (Small.delete 100 98), .op (Small.set 100 99 1)]

theorem deleteWithRoom_below : Along (Engine.act (smallConfig 100))
    (Engine.WritesBelow (smallConfig 100)) deleteWithRoom
    ((Engine.fresh (smallConfig 100)).boot (smallConfig 100)) :=
  (memtable_below_budget_iff (by decide) _ _).mpr (by decide +kernel)

/-- **Deletes go over the budget**: with a budget of 100 bytes three
`Delete`s in a row return `Ok` and leave 49 bytes each; the next `Set` would
flush, but none comes. -/
theorem deletes_exceed_budget :
    let e := (Small.opened 100).run (smallConfig 100)
      [Small.delete 100 97, Small.delete 100 98, Small.delete 100 99]
    ((Engine.fresh (smallConfig 100)).open (smallConfig 100) {}).1 = .ok 0 ∧
    (((Small.opened 100).trace (smallConfig 100)
      [Small.delete 100 97, Small.delete 100 98, Small.delete 100 99]).all
        fun ev => ev.2.isOk) = true ∧
    e.memtable.memoryBudget = 100 ∧ e.memtable.approxMemory = 147 := by
  decide +kernel

end VaultKV
