import VaultKV.Engine.Runs

/-!
# Engine — calls as sequences of atomic steps

Several threads may call one `StorageEngine`. What they share is protected
section by section: `Wal::Append`, each call of the memtable and each scope
of `tables_mu_` is one ATOMIC step, and so is the file work in between,
which holds no lock. `Phase` is where a call stands between two of its
steps, with the local variables it carries over; `Phase.step` is the next
step. A schedule names the thread that steps next, so a run is any
interleaving (`Threads.run`).

A call that runs without interruption does what the engine's function does
(`set_alone`, `flush_alone`, `compact_alone`, `get_alone`).
-/

namespace VaultKV

open Lib

/-- A call of the engine, with what it meets outside the program. -/
inductive Call (c : Cipher) where
  | set (io : WriteIo c) (key value : Bytes)
  | delete (io : WriteIo c) (key : Bytes)
  | flush (io : FlushIo c)
  | compact (io : CompactIo c)
  | get (key : Bytes)

/-- Where a call stands: the step named is the next one. `ret` is the number
that `Set` returns when the flush behind it succeeds. -/
inductive Phase (c : Cipher) where
  | appending (io : WriteIo c) (op : WalOp) (key value : Bytes)
  | storing (io : FlushIo c) (op : WalOp) (key value : Bytes) (seq : Nat)
  | checking (io : FlushIo c) (ret : Nat)
  | draining (io : FlushIo c) (ret : Nat)
  | building (io : FlushIo c) (ret : Nat) (records : List (Bytes × MemValue))
  | installing (io : FlushIo c) (ret : Nat) (records : List (Bytes × MemValue))
      (reader : SstableReader)
  | listing (io : CompactIo c) (ret : Nat)
  | merging (io : CompactIo c) (ret : Nat) (paths : List Bytes)
  | swapping (io : CompactIo c) (ret : Nat) (paths : List Bytes) (reader : SstableReader)
  | removing (io : CompactIo c) (ret : Nat) (i : Nat) (paths : List Bytes)
  | reading (key : Bytes)
  | searching (key : Bytes)
  | returned (res : Res Nat)
  | answered (res : Res Bytes)

/-- The first step of a call. -/
def Call.begin {c : Cipher} : Call c → Phase c
  | .set io key value => .appending io .kSet key value
  | .delete io key => .appending io .kDelete key []
  | .flush io => .draining io 0
  | .compact io => .listing io 0
  | .get key => .reading key

/-- The part of `Get` that holds `tables_mu_`. -/
def Engine.searchTables (cfg : Config) (key : Bytes) (e : Engine) : Res Bytes :=
  match Engine.getTables cfg.cipher e.l0Dir key e.l0Tables.reverse with
  | some r => r
  | none =>
      match Engine.getTables cfg.cipher e.l1Dir key e.l1Tables.reverse with
      | some r => r
      | none => .error (Status.notFound "key not found")

/-- One atomic step of a call. -/
def Phase.step (cfg : Config) (e : Engine) : Phase cfg.cipher → Engine × Phase cfg.cipher
  | .appending io op key value =>
      match e.logWrite cfg io op key value with
      | (.error err, e) => (e, .returned (.error err))
      | (.ok seq, e) =>
          match Engine.replicate cfg io.calls with
          | .error err => (e, .returned (.error err))
          | .ok _ => (e, .storing io.flush op key value seq)
  | .storing io op key value seq =>
      match op with
      | .kDelete =>
          let r := e.memtable.delete key seq
          ({ e with memtable := r.2 }, .returned r.1)
      | _ =>
          match e.memtable.set key value seq with
          | (.error err, m) => ({ e with memtable := m }, .returned (.error err))
          | (.ok _, m) => ({ e with memtable := m }, .checking io seq)
  | .checking io ret =>
      if e.memtable.memoryBudget ≤ e.memtable.approxMemory then (e, .draining io ret)
      else (e, .returned (.ok ret))
  | .draining io ret =>
      if e.isOpen = false then (e, .returned (.error (Status.ioError "engine not open")))
      else
        let drained := e.memtable.drainSorted true
        let e := { e with memtable := drained.2 }
        if drained.1 = [] then (e, .returned (.ok ret))
        else (e, .building io ret drained.1)
  | .building io ret records =>
      let path := sstName io.nanos e.nextSstableId
      let r := SstableBuilder.build cfg.cipher io.build path
        (records.map SstableRecord.ofEntry)
      let e := { e with nextSstableId := e.nextSstableId + 1,
                        l0Dir := Engine.putFile e.l0Dir path r.2 }
      match r.1 with
      | .error err => (e, .returned (.error err))
      | .ok m =>
          match SstableReader.open io.install m.path (e.l0Dir.find m.path) with
          | .error err => (e, .returned (.error err))
          | .ok rd => (e, .installing io ret records rd)
  | .installing io ret _ rd =>
      ({ e with l0Tables := e.l0Tables ++ [rd] }, .listing io.compact ret)
  | .listing io ret =>
      if e.l0Tables.length < 4 then (e, .returned (.ok ret))
      else (e, .merging io ret (e.l0Tables.map SstableReader.path))
  | .merging io ret paths =>
      let outPath := sstName io.nanos e.nextSstableId
      let r := compactLevel0ToLevel1 cfg.cipher io.merge e.l0Dir paths outPath
      let e := { e with nextSstableId := e.nextSstableId + 1,
                        l1Dir := Engine.putFile e.l1Dir outPath r.2 }
      match r.1 with
      | .error err => (e, .returned (.error err))
      | .ok _ =>
          match SstableReader.open io.install outPath (e.l1Dir.find outPath) with
          | .error err => (e, .returned (.error err))
          | .ok rd => (e, .swapping io ret paths rd)
  | .swapping io ret paths rd =>
      ({ e with l1Tables := e.l1Tables ++ [rd], l0Tables := [] }, .removing io ret 0 paths)
  | .removing _ ret _ [] => (e, .returned (.ok ret))
  | .removing io ret i (p :: ps) =>
      ({ e with l0Dir := if io.removeFails i then e.l0Dir else e.l0Dir.erase p },
        .removing io ret (i + 1) ps)
  | .reading key =>
      if e.isOpen = false then (e, .answered (.error (Status.ioError "engine not open")))
      else if key = [] then
        (e, .answered (.error (Status.invalidArgument "key must not be empty")))
      else
        match e.memtable.get key with
        | .ok v => (e, .answered (Engine.answerOf v))
        | .error _ => (e, .searching key)
  | .searching key => (e, .answered (e.searchTables cfg key))
  | .returned res => (e, .returned res)
  | .answered res => (e, .answered res)

/-- The record a call appends to the log with its next step. -/
def Phase.appended (cfg : Config) (e : Engine) : Phase cfg.cipher → List WalRecord
  | .appending io op key value => e.appended cfg io op key value
  | _ => []

/-- Of a write, the step that appends is the one that changes the log. -/
theorem Phase.appending_wal (cfg : Config) (io : WriteIo cfg.cipher) (op : WalOp)
    (key value : Bytes) (e : Engine) :
    ((Phase.appending io op key value).step cfg e).1.wal
      = (e.logWrite cfg io op key value).2.wal := by
  simp only [Phase.step]
  rcases e.logWrite cfg io op key value with ⟨res, e'⟩
  cases res with
  | error err => rfl
  | ok seq =>
      dsimp only
      cases Engine.replicate cfg io.calls <;> rfl

/-- **The record of a step is in the log.** -/
theorem Phase.appended_hasRecord {cfg : Config} {e : Engine} {p : Phase cfg.cipher}
    {rec : WalRecord} (h : rec ∈ p.appended cfg e) :
    (p.step cfg e).1.wal.HasRecord cfg.cipher rec := by
  cases p with
  | appending io op key value =>
      rw [Phase.appending_wal]
      exact Engine.appended_hasRecord h
  | _ => cases h

/-- A step keeps what is in the log: no other phase writes to it. -/
theorem Phase.step_keeps {cfg : Config} {e : Engine} {rec : WalRecord}
    (h : e.wal.HasRecord cfg.cipher rec) (p : Phase cfg.cipher) :
    (p.step cfg e).1.wal.HasRecord cfg.cipher rec := by
  cases p with
  | appending io op key value =>
      rw [Phase.appending_wal]
      exact logWrite_keeps h io op key value
  | removing io ret i ps => cases ps <;> exact h
  | _ =>
      simp only [Phase.step]
      repeat' split
      all_goals exact h

/-! ## Threads -/

/-- The engine and the calls in progress. -/
structure Threads (cfg : Config) where
  engine : Engine
  phases : List (Phase cfg.cipher)

namespace Threads

variable {cfg : Config}

/-- The calls, none of which has begun. -/
def start (e : Engine) (calls : List (Call cfg.cipher)) : Threads cfg :=
  ⟨e, calls.map Call.begin⟩

/-- Thread `i` takes its next step. -/
def tick (i : Nat) (t : Threads cfg) : Threads cfg :=
  match t.phases[i]? with
  | none => t
  | some p =>
      let r := p.step cfg t.engine
      ⟨r.1, t.phases.set i r.2⟩

def run : List Nat → Threads cfg → Threads cfg
  | [], t => t
  | i :: is, t => run is (t.tick i)

/-- The record that thread `i` appends to the log with its next step. -/
def appended (i : Nat) (t : Threads cfg) : List WalRecord :=
  match t.phases[i]? with
  | none => []
  | some p => p.appended cfg t.engine

/-- The records of a run, in the order of the log. -/
def records : List Nat → Threads cfg → List WalRecord
  | [], _ => []
  | i :: is, t => t.appended i ++ records is (t.tick i)

/-- A run keeps what is in the log. -/
theorem run_keeps {rec : WalRecord} (is : List Nat) :
    ∀ {t : Threads cfg}, t.engine.wal.HasRecord cfg.cipher rec →
      (t.run is).engine.wal.HasRecord cfg.cipher rec := by
  induction is with
  | nil => intro t h; exact h
  | cons i is ih =>
      intro t h
      refine ih ?_
      unfold tick
      split
      · exact h
      · exact Phase.step_keeps h _

/-- **The records of a run are in the log** at its end. -/
theorem records_hasRecord {rec : WalRecord} (is : List Nat) :
    ∀ {t : Threads cfg}, rec ∈ t.records is →
      (t.run is).engine.wal.HasRecord cfg.cipher rec := by
  induction is with
  | nil => intro t h; cases h
  | cons i is ih =>
      intro t h
      rcases List.mem_append.mp h with hnow | hlater
      · refine run_keeps is ?_
        unfold appended at hnow
        unfold tick
        split at hnow
        · cases hnow
        · exact Phase.appended_hasRecord hnow
      · exact ih hlater

end Threads

/-! ## A call that runs alone -/

/-- One call, taken some steps further with nobody in between. -/
def Reaches (cfg : Config) (x y : Engine × Phase cfg.cipher) : Prop :=
  ∃ n, (fun z : Engine × Phase cfg.cipher => z.2.step cfg z.1)^[n] x = y

namespace Reaches

variable {cfg : Config} {x y : Engine × Phase cfg.cipher}

theorem refl (x : Engine × Phase cfg.cipher) : Reaches cfg x x := ⟨0, rfl⟩

theorem head (h : Reaches cfg (x.2.step cfg x.1) y) : Reaches cfg x y := by
  obtain ⟨n, hn⟩ := h
  exact ⟨n + 1, by rw [Function.iterate_succ_apply]; exact hn⟩

/-- The step is known. -/
theorem step {z : Engine × Phase cfg.cipher} (hz : x.2.step cfg x.1 = z)
    (h : Reaches cfg z y) : Reaches cfg x y := head (hz ▸ h)

end Reaches

variable {cfg : Config}

theorem removing_alone (io : CompactIo cfg.cipher) (ret : Nat) (ps : List Bytes) :
    ∀ i e, Reaches cfg (e, .removing io ret i ps)
      ({ e with l0Dir := Engine.removeFiles io.removeFails i ps e.l0Dir },
        .returned (.ok ret)) := by
  induction ps with
  | nil => intro i e; exact Reaches.step rfl (Reaches.refl _)
  | cons p ps ih => intro i e; exact Reaches.step rfl (ih (i + 1) _)

/-- The steps of `MaybeCompact`. -/
theorem listing_alone (io : CompactIo cfg.cipher) (ret : Nat) (e : Engine) :
    Reaches cfg (e, .listing io ret)
      ((e.maybeCompact cfg io).2, .returned ((e.maybeCompact cfg io).1.map fun _ => ret)) := by
  refine Reaches.head ?_
  unfold Engine.maybeCompact
  simp only [Phase.step]
  by_cases hfew : e.l0Tables.length < 4
  · rw [if_pos hfew, if_pos hfew]
    exact Reaches.refl _
  rw [if_neg hfew, if_neg hfew]
  refine Reaches.head ?_
  simp only [Phase.step]
  rcases compactLevel0ToLevel1 cfg.cipher io.merge e.l0Dir
    (e.l0Tables.map SstableReader.path) (sstName io.nanos e.nextSstableId) with ⟨res, out⟩
  cases res with
  | error err => exact Reaches.refl _
  | ok n =>
      dsimp only
      cases SstableReader.open io.install (sstName io.nanos e.nextSstableId)
        ((Engine.putFile e.l1Dir (sstName io.nanos e.nextSstableId) out).find
          (sstName io.nanos e.nextSstableId)) with
      | error err => exact Reaches.refl _
      | ok rd => exact Reaches.step rfl (removing_alone io ret _ 0 _)

/-- The steps of `FlushMemTable`. -/
theorem draining_alone (io : FlushIo cfg.cipher) (ret : Nat) (e : Engine) :
    Reaches cfg (e, .draining io ret) ((e.flushMemTable cfg io).2,
      .returned ((e.flushMemTable cfg io).1.map fun _ => ret)) := by
  refine Reaches.head ?_
  unfold Engine.flushMemTable Engine.buildAndInstall
  simp only [Phase.step]
  by_cases hopen : e.isOpen = false
  · rw [if_pos hopen, if_pos hopen]
    exact Reaches.refl _
  rw [if_neg hopen, if_neg hopen]
  by_cases hnil : (e.memtable.drainSorted true).1 = []
  · rw [if_pos hnil, if_pos hnil]
    exact Reaches.refl _
  rw [if_neg hnil, if_neg hnil]
  refine Reaches.head ?_
  simp only [Phase.step]
  rcases SstableBuilder.build cfg.cipher io.build (sstName io.nanos e.nextSstableId)
    ((e.memtable.drainSorted true).1.map SstableRecord.ofEntry) with ⟨res, out⟩
  cases res with
  | error err => exact Reaches.refl _
  | ok m =>
      dsimp only
      cases SstableReader.open io.install m.path
        ((Engine.putFile e.l0Dir (sstName io.nanos e.nextSstableId) out).find m.path) with
      | error err => exact Reaches.refl _
      | ok rd => exact Reaches.step rfl (listing_alone io.compact ret _)

/-- **`Set`, uninterrupted.** -/
theorem set_alone (io : WriteIo cfg.cipher) (key value : Bytes) (e : Engine) :
    Reaches cfg (e, (Call.set io key value).begin)
      ((e.set cfg io key value).2, .returned (e.set cfg io key value).1) := by
  refine Reaches.head ?_
  unfold Engine.set
  simp only [Call.begin, Phase.step]
  rcases e.logWrite cfg io .kSet key value with ⟨res, e₁⟩
  cases res with
  | error err => exact Reaches.refl _
  | ok seq =>
      dsimp only
      cases Engine.replicate cfg io.calls with
      | error err => exact Reaches.refl _
      | ok n =>
          refine Reaches.head ?_
          simp only [Phase.step, Engine.applySet]
          rcases e₁.memtable.set key value seq with ⟨res, m⟩
          cases res with
          | error err => exact Reaches.refl _
          | ok n =>
              refine Reaches.head ?_
              simp only [Phase.step]
              by_cases hfull : m.memoryBudget ≤ m.approxMemory
              · rw [if_pos hfull, if_pos hfull]
                have hflush := draining_alone io.flush seq { e₁ with memtable := m }
                rcases hf : Engine.flushMemTable cfg io.flush { e₁ with memtable := m } with
                  ⟨resf, e₂⟩
                rw [hf] at hflush
                cases resf with
                | error err => exact hflush
                | ok n => exact hflush
              · rw [if_neg hfull, if_neg hfull]
                exact Reaches.refl _

/-- **`Delete`, uninterrupted.** -/
theorem delete_alone (io : WriteIo cfg.cipher) (key : Bytes) (e : Engine) :
    Reaches cfg (e, (Call.delete io key).begin)
      ((e.delete cfg io key).2, .returned (e.delete cfg io key).1) := by
  refine Reaches.head ?_
  unfold Engine.delete
  simp only [Call.begin, Phase.step]
  rcases e.logWrite cfg io .kDelete key [] with ⟨res, e₁⟩
  cases res with
  | error err => exact Reaches.refl _
  | ok seq =>
      dsimp only
      cases Engine.replicate cfg io.calls with
      | error err => exact Reaches.refl _
      | ok n => exact Reaches.step rfl (Reaches.refl _)

/-- **`FlushMemTable`, uninterrupted.** -/
theorem flush_alone (io : FlushIo cfg.cipher) (e : Engine) :
    Reaches cfg (e, (Call.flush io).begin) ((e.flushMemTable cfg io).2,
      .returned ((e.flushMemTable cfg io).1.map fun _ => 0)) :=
  draining_alone io 0 e

/-- **`MaybeCompact`, uninterrupted.** -/
theorem compact_alone (io : CompactIo cfg.cipher) (e : Engine) :
    Reaches cfg (e, (Call.compact io).begin) ((e.maybeCompact cfg io).2,
      .returned ((e.maybeCompact cfg io).1.map fun _ => 0)) :=
  listing_alone io 0 e

theorem get_eq_searchTables (key : Bytes) (e : Engine) (hopen : ¬ e.isOpen = false)
    (hkey : key ≠ []) : e.get cfg key =
      match e.memtable.get key with
      | .ok v => Engine.answerOf v
      | .error _ => e.searchTables cfg key := by
  rw [Engine.get, if_neg hopen, if_neg hkey]
  rfl

/-- **`Get`, uninterrupted.** -/
theorem get_alone (key : Bytes) (e : Engine) :
    Reaches cfg (e, (Call.get key).begin) (e, .answered (e.get cfg key)) := by
  refine Reaches.head ?_
  simp only [Call.begin, Phase.step]
  by_cases hopen : e.isOpen = false
  · rw [if_pos hopen, Engine.get, if_pos hopen]
    exact Reaches.refl _
  by_cases hkey : key = []
  · rw [if_neg hopen, if_pos hkey, Engine.get, if_neg hopen, if_pos hkey]
    exact Reaches.refl _
  rw [if_neg hopen, if_neg hkey, get_eq_searchTables key e hopen hkey]
  cases e.memtable.get key with
  | ok v => exact Reaches.refl _
  | error err => exact Reaches.step rfl (Reaches.refl _)

end VaultKV
