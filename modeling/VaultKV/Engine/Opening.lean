import VaultKV.Engine.Runs

/-!
# Engine — opening a data directory

`Open` succeeds when the log opens, EVERY table file of both levels opens
and the log replays; `Opened` lists the parts. One table file that does not
open makes the whole directory unopenable.
-/

namespace VaultKV

open Lib

/-- What a successful `Open` of a closed engine did. -/
structure Engine.Opened (cfg : Config) (io : OpenIo) (e e' : Engine) : Prop where
  createL0 : io.createL0 = none
  createL1 : io.createL1 = none
  wal : (e.wal.open cfg.platform cfg.cipher cfg.opts.walSegmentSizeBytes
    io.wal).1.isOk = true
  l0 : (Engine.openTables e.l0Dir io.readsL0 0
    (Engine.tablePaths e.l0Dir io.listL0Fails)).1.isOk = true
  l1 : (Engine.openTables e.l1Dir io.readsL1 0
    (Engine.tablePaths e.l1Dir io.listL1Fails)).1.isOk = true
  replay : ((e.wal.open cfg.platform cfg.cipher cfg.opts.walSegmentSizeBytes
    io.wal).2.replay cfg.cipher cfg.opts.walSegmentSizeBytes Engine.replayRecord true
      e.memtable).1.isOk = true
  eq : e' =
    { e with
      isOpen := true
      wal := (e.wal.open cfg.platform cfg.cipher cfg.opts.walSegmentSizeBytes io.wal).2
      l0Tables := (Engine.openTables e.l0Dir io.readsL0 0
        (Engine.tablePaths e.l0Dir io.listL0Fails)).2
      l1Tables := (Engine.openTables e.l1Dir io.readsL1 0
        (Engine.tablePaths e.l1Dir io.listL1Fails)).2
      memtable := ((e.wal.open cfg.platform cfg.cipher cfg.opts.walSegmentSizeBytes
        io.wal).2.replay cfg.cipher cfg.opts.walSegmentSizeBytes Engine.replayRecord true
          e.memtable).2 }

/-- **`Open` returns `Ok` exactly when all its parts do.** -/
theorem open_ok_iff {cfg : Config} {io : OpenIo} {e e' : Engine} (hclosed : e.isOpen = false) :
    e.open cfg io = (.ok 0, e') ↔ Engine.Opened cfg io e e' := by
  unfold Engine.open
  rw [if_neg (by simp [hclosed])]
  cases h0 : io.createL0 with
  | some err => exact iff_of_false (by simp) fun h => by simp [h.createL0] at h0
  | none =>
  cases h1 : io.createL1 with
  | some err => exact iff_of_false (by simp) fun h => by simp [h.createL1] at h1
  | none =>
  rcases hw : e.wal.open cfg.platform cfg.cipher cfg.opts.walSegmentSizeBytes
    io.wal with ⟨resW, w⟩
  cases resW with
  | error err => exact iff_of_false (by simp) fun h => by simpa [hw] using h.wal
  | ok nW =>
  rcases hl0 : Engine.openTables e.l0Dir io.readsL0 0
    (Engine.tablePaths e.l0Dir io.listL0Fails) with ⟨res0, l0⟩
  cases res0 with
  | error err =>
      exact iff_of_false (by simp [Engine.loadSstablesFromDisk, hl0])
        fun h => by simpa [hl0] using h.l0
  | ok n0 =>
  rcases hl1 : Engine.openTables e.l1Dir io.readsL1 0
    (Engine.tablePaths e.l1Dir io.listL1Fails) with ⟨res1, l1⟩
  cases res1 with
  | error err =>
      exact iff_of_false (by simp [Engine.loadSstablesFromDisk, hl0, hl1])
        fun h => by simpa [hl1] using h.l1
  | ok n1 =>
  rcases hr : w.replay cfg.cipher cfg.opts.walSegmentSizeBytes
    Engine.replayRecord true e.memtable with ⟨resR, m⟩
  cases resR with
  | error err =>
      exact iff_of_false
        (by simp [Engine.loadSstablesFromDisk, hl0, hl1, Engine.replayWal, hr])
        fun h => by simpa [hw, hr] using h.replay
  | ok nR =>
  simp only [Engine.loadSstablesFromDisk, hl0, hl1, Engine.replayWal, hr, Prod.mk.injEq,
    true_and]
  constructor
  · intro h
    refine ⟨h0, h1, ?_, ?_, ?_, ?_, ?_⟩ <;> simp [hw, hl0, hl1, hr, ← h]
  · intro h
    rw [h.eq]
    simp [hw, hl0, hl1, hr]

theorem wal_open_ok {pf : Platform} {c : Cipher} {capacity : Nat} {w : Wal}
    (hclosed : w.isOpen = false) (hpos : 0 < capacity) (hmax : capacity ≤ pf.maxMap) :
    (w.open pf c capacity {}).1.isOk = true := by
  have hlt := pf.maxMap_lt
  have h3 : Wal.ftruncateError {} capacity = none := by
    rw [Wal.ftruncateError, if_neg (by omega)]
  have h4 : Wal.mmapError pf {} capacity = none := by
    rw [Wal.mmapError, if_neg (by omega), if_neg (by omega)]
  unfold Wal.open
  simp only [hclosed, Bool.false_eq_true, if_false, h3, h4]
  rfl

end VaultKV
