import VaultKV.Engine.Scan
import VaultKV.Engine.Shelf

/-!
# Engine — the order of versions, over restarts

`Get` takes the FIRST version it meets and never compares numbers;
`ScanPrefix` compares numbers. Both are right as long as the versions met on
the way (memtable, level 0 from its last table, level 1 from its last table)
only get older. `Engine.Ranked` is the invariant that keeps them so through
writes, flushes, compactions, and through `Close` and `Open` in one process
or from one process to the next.
-/

namespace VaultKV

open Lib

/-! ## Runs with restarts -/

/-- An operation, a `Close`, an `Open` of the same object, or a new process
that opens the directory. -/
inductive Act (c : Cipher) where
  | op (o : Op c)
  | close (io : CloseIo)
  | reopen (io : OpenIo)
  | restart (io : OpenIo)

namespace Engine

variable (cfg : Config)

def act (a : Act cfg.cipher) (e : Engine) : Engine :=
  match a with
  | .op o => (e.step cfg o).2
  | .close io => (e.close io).2
  | .reopen io => (e.open cfg io).2
  | .restart io => ((e.boot cfg).open cfg io).2

def actAll : List (Act cfg.cipher) → Engine → Engine
  | [], e => e
  | a :: as, e => actAll as (e.act cfg a)

/-- No I/O fails, and what is logged parses back. -/
def QuietAct (a : Act cfg.cipher) (e : Engine) : Prop :=
  match a with
  | .op o => o.Clean ∧ e.LogsReadable cfg o
  | .close _ => True
  | .reopen io => io.Clean
  | .restart io => io.Clean

def Quiet : List (Act cfg.cipher) → Engine → Prop
  | [], _ => True
  | a :: as, e => e.QuietAct cfg a ∧ Quiet as (e.act cfg a)

/-! ## The clock readings in file names -/

/-- The reading `MaybeCompact` takes for its output, if it comes to that. -/
def compactReadings (io : CompactIo cfg.cipher) (e : Engine) : List Nat :=
  if e.l0Tables.length < 4 then [] else [io.nanos]

def flushReadings (io : FlushIo cfg.cipher) (e : Engine) : List Nat :=
  if e.isOpen = false then []
  else if (e.memtable.drainSorted true).1 = [] then []
  else io.nanos ::
    match e.buildAndInstall cfg io with
    | (.ok (some _), e) => compactReadings cfg io.compact e
    | _ => []

/-- The readings an operation puts into file names, in this state. -/
def opReadings (op : Op cfg.cipher) (e : Engine) : List Nat :=
  match op with
  | .set io key value =>
      match e.logWrite cfg io .kSet key value with
      | (.ok seq, e) =>
          match replicate cfg io.calls, e.memtable.set key value seq with
          | .ok _, (.ok _, m) =>
              if m.memoryBudget ≤ m.approxMemory then
                flushReadings cfg io.flush { e with memtable := m }
              else []
          | _, _ => []
      | _ => []
  | .delete _ _ => []
  | .flush io => flushReadings cfg io e
  | .compact io => compactReadings cfg io e

def actReadings (a : Act cfg.cipher) (e : Engine) : List Nat :=
  match a with
  | .op o => opReadings cfg o e
  | _ => []

/-- All readings of a run, in order. -/
def readings : List (Act cfg.cipher) → Engine → List Nat
  | [], _ => []
  | a :: as, e => e.actReadings cfg a ++ readings as (e.act cfg a)

theorem actAll_append (as bs : List (Act cfg.cipher)) :
    ∀ e : Engine, e.actAll cfg (as ++ bs) = (e.actAll cfg as).actAll cfg bs := by
  induction as with
  | nil => intro e; rfl
  | cons a as ih => intro e; exact ih _

theorem quiet_append (as bs : List (Act cfg.cipher)) :
    ∀ e : Engine, e.Quiet cfg (as ++ bs) ↔
      e.Quiet cfg as ∧ (e.actAll cfg as).Quiet cfg bs := by
  induction as with
  | nil => intro e; exact ⟨fun h => ⟨trivial, h⟩, And.right⟩
  | cons a as ih =>
      intro e
      rw [List.cons_append, Quiet, Quiet, ih, and_assoc]
      rfl

theorem readings_append (as bs : List (Act cfg.cipher)) :
    ∀ e : Engine, e.readings cfg (as ++ bs) =
      e.readings cfg as ++ (e.actAll cfg as).readings cfg bs := by
  induction as with
  | nil => intro e; rfl
  | cons a as ih =>
      intro e
      rw [List.cons_append, readings, readings, ih, List.append_assoc]
      rfl

/-! ## What `Get` meets -/

/-- The versions of a key the tables hold, in this order. -/
def tableVersions (c : Cipher) (dir : SortedMap Bytes Bytes) (key : Bytes)
    (rds : List SstableReader) : List MemValue :=
  rds.filterMap fun rd =>
    match rd.get c (dir.find rd.path) key with
    | .ok r => some r.version
    | .error _ => none

/-- All stored versions of a key, in the order `Get` would meet them. -/
def versionsMet (key : Bytes) (e : Engine) : List MemValue :=
  (match e.memtable.get key with
   | .ok v => [v]
   | .error _ => []) ++
    (tableVersions cfg.cipher e.l0Dir key e.l0Tables.reverse ++
      tableVersions cfg.cipher e.l1Dir key e.l1Tables.reverse)

/-- No table has more records with this start than a scan asks it for. -/
def Uncut (start : Bytes) (limit : Nat) (e : Engine) : Prop :=
  (∀ rd ∈ e.l0Tables, ((rd.allRecords cfg.cipher (fun _ => {}) (e.l0Dir.find rd.path)).filter
    fun r => start.isPrefixOf r.key).length ≤ limit * 2 % 2 ^ 64) ∧
  ∀ rd ∈ e.l1Tables, ((rd.allRecords cfg.cipher (fun _ => {}) (e.l1Dir.find rd.path)).filter
    fun r => start.isPrefixOf r.key).length ≤ limit * 2 % 2 ^ 64

end Engine

theorem tableVersions_eq {c : Cipher} {dir : SortedMap Bytes Bytes}
    {rds : List SstableReader} {ts : List (Table Bytes Bytes)}
    (h : List.Forall₂ (TableAt c dir) rds ts) (k : Bytes) :
    Engine.tableVersions c dir k rds = hits ts k := by
  induction h with
  | nil => rfl
  | @cons rd t rds ts hhead _ ih =>
      obtain ⟨file, hfile, -, hreads⟩ := hhead
      rw [hits_cons, ← ih, Engine.tableVersions, List.filterMap_cons, hfile]
      cases hv : t.find k with
      | none =>
          obtain ⟨msg, hget⟩ := hreads.get_of_not_find hv
          rw [hget]
          rfl
      | some v =>
          rw [hreads.get_of_find hv]
          rfl

theorem Engine.Rep.versionsMet {cfg : Config} {e : Engine} {s : Lsm Bytes Bytes}
    (h : e.Rep cfg s) (k : Bytes) : e.versionsMet cfg k = hits s.path k := by
  rw [Engine.versionsMet, tableVersions_eq h.reverse_l0, tableVersions_eq h.reverse_l1,
    Lsm.hits_path, MemTable.get, h.mem]
  cases s.mem.find k with
  | none => rfl
  | some v => rfl

/-! ## The invariant -/

/-- A log can be opened with this configuration. -/
structure Config.Opens (cfg : Config) : Prop extends cfg.Reliable where
  pos : 0 < cfg.opts.walSegmentSizeBytes
  max : cfg.opts.walSegmentSizeBytes ≤ cfg.platform.maxMap

theorem Config.Opens.bound {cfg : Config} (h : cfg.Opens) :
    cfg.opts.walSegmentSizeBytes < 2 ^ 57 := by
  have := h.max
  have := cfg.platform.maxMap_lt
  omega

/-- The tree behind `MaybeCompact`. -/
def Lsm.settled (s : Lsm Bytes Bytes) : Lsm Bytes Bytes :=
  if Lsm.Compactable s then s.compact else s

/-- The tree behind `FlushMemTable`. -/
def Lsm.flushed (s : Lsm Bytes Bytes) : Lsm Bytes Bytes :=
  if s.mem.entries = [] then s else Lsm.settled s.flush

/-- The tree behind `Open`: the memtable is what the log says. -/
def Lsm.reopened (rs : List WalRecord) (s : Lsm Bytes Bytes) : Lsm Bytes Bytes :=
  { s with mem := (replayed rs { memoryBudgetBytes := 0 }).table }

/-- **The order is kept**: the engine stands for a tree whose versions are
logged and only get older along the path, and both levels stand on their
shelves in the order of installation. -/
structure Engine.Ranked (cfg : Config) (width : Nat) (used : List Nat) (e : Engine)
    (s : Lsm Bytes Bytes) (rs : List WalRecord) : Prop where
  kept : e.Durable cfg rs
  wal : e.wal.isOpen = e.isOpen
  rep : e.Rep cfg s
  logged : s.Each (Logged rs)
  sound : s.Sound
  l0 : Shelved width used e.l0Dir e.l0Tables
  l1 : Shelved width used e.l1Dir e.l1Tables

namespace Engine.Ranked

variable {cfg : Config} {width : Nat} {used : List Nat} {e : Engine} {s : Lsm Bytes Bytes}
  {rs : List WalRecord}

theorem rule (hcfg : cfg.Opens) : FileRule cfg (TableFile cfg.cipher) :=
  tableFile_rule hcfg.lawful hcfg.bound

theorem mono (h : e.Ranked cfg width used s rs) (new : List Nat) :
    e.Ranked cfg width (used ++ new) s rs :=
  ⟨h.kept, h.wal, h.rep, h.logged, h.sound, h.l0.mono new, h.l1.mono new⟩

/-! ### Flush and compaction -/

theorem maybeCompact (hcfg : cfg.Opens) (h : e.Ranked cfg width used s rs)
    {io : CompactIo cfg.cipher} (hio : io.Clean)
    (hticks : Ticks width used (e.compactReadings cfg io)) :
    (e.maybeCompact cfg io).2.Ranked cfg width (used ++ e.compactReadings cfg io)
      (Lsm.settled s) rs := by
  have hkept : (e.maybeCompact cfg io).2.Durable cfg rs :=
    Engine.Kept.maybeCompact (rule hcfg) h.kept io
  have hlen := h.rep.length_l0
  unfold Engine.compactReadings at hticks ⊢
  by_cases hfew : e.l0Tables.length < 4
  · have hno : ¬ Lsm.Compactable s := fun hc => by have := hc.1; omega
    rw [if_pos hfew, List.append_nil, maybeCompact_few io hfew, Lsm.settled, if_neg hno]
    exact h
  rw [if_neg hfew] at hticks ⊢
  have hfresh := h.l1.fresh hticks e.nextSstableId
  by_cases hlive : (Lsm.live s.merged).entries = []
  · have hno : ¬ Lsm.Compactable s := fun hc => hc.2 hlive
    rw [maybeCompact_dead hcfg.lawful hio h.rep (by omega) hlive hfresh] at hkept ⊢
    rw [Lsm.settled, if_neg hno]
    exact ⟨hkept, h.wal, ⟨h.rep.mem, h.rep.l0, h.rep.l1⟩, h.logged, h.sound,
      h.l0.mono _, h.l1.mono _⟩
  · have hyes : Lsm.Compactable s := ⟨by omega, hlive⟩
    obtain ⟨w, hw⟩ := h.kept.disk.exists_counts
    obtain ⟨rd, f, hrd, -, hat, heq⟩ := maybeCompact_clean hcfg.lawful hcfg.encrypts hio h.rep
      hw hcfg.bound h.logged hyes
    have hrep := h.rep.compact hat (fun hp => hfresh (paths_subset h.rep.l1 hp))
      (e.nextSstableId + 1) (Engine.removeFiles io.removeFails 0
        (e.l0Tables.map SstableReader.path) e.l0Dir)
    rw [heq] at hkept ⊢
    rw [Lsm.settled, if_pos hyes]
    exact ⟨hkept, h.wal, hrep, h.logged.compact h.sound, h.sound.compact,
      (h.l0.removeFiles hio.removeFails).mono _, h.l1.install hticks hrd f⟩

theorem flushMemTable (hcfg : cfg.Opens) (h : e.Ranked cfg width used s rs)
    {io : FlushIo cfg.cipher} (hio : io.Clean)
    (hticks : Ticks width used (e.flushReadings cfg io)) :
    (e.flushMemTable cfg io).2.Ranked cfg width (used ++ e.flushReadings cfg io)
      (if e.isOpen = false then s else Lsm.flushed s) rs := by
  unfold Engine.flushReadings Engine.flushMemTable at *
  by_cases hopen : e.isOpen = false
  · rw [if_pos hopen, if_pos hopen, if_pos hopen, List.append_nil]
    exact h
  rw [if_neg hopen] at hticks ⊢
  rw [if_neg hopen, if_neg hopen]
  have hkept : (e.buildAndInstall cfg io).2.Durable cfg rs :=
    Engine.Kept.buildAndInstall (rule hcfg) h.kept io
  have hdrained : (e.memtable.drainSorted true).1 = s.mem.entries := by
    rw [MemTable.drainSorted, MemTable.snapshotSorted_true, h.rep.mem]
  rw [hdrained] at hticks ⊢
  unfold Lsm.flushed
  by_cases hmem : s.mem.entries = []
  · rw [if_pos hmem, if_pos hmem, List.append_nil]
    rw [buildAndInstall_empty h.rep hmem] at hkept ⊢
    have hempty : s.mem = SortedMap.empty := SortedMap.ext_find fun k => by
      rw [SortedMap.find, hmem]; rfl
    exact ⟨hkept, h.wal, ⟨hempty.symm, h.rep.l0, h.rep.l1⟩, h.logged, h.sound, h.l0, h.l1⟩
  rw [if_neg hmem] at hticks ⊢
  rw [if_neg hmem]
  obtain ⟨w, hw⟩ := h.kept.disk.exists_counts
  obtain ⟨rd, f, hrd, -, hat, hbuild⟩ := buildAndInstall_clean hcfg.lawful hcfg.encrypts
    hio.build hio.install h.rep hw hcfg.bound h.logged hmem
  rw [hbuild] at hkept hticks ⊢
  dsimp only at hkept hticks ⊢
  rw [← List.singleton_append] at hticks ⊢
  have hfresh := h.l0.fresh hticks.take e.nextSstableId
  have hrep := h.rep.flush hat (fun hp => hfresh (paths_subset h.rep.l0 hp))
    (m := (e.memtable.drainSorted true).2) rfl (e.nextSstableId + 1)
  have h₁ : Engine.Ranked cfg width (used ++ [io.nanos]) _ s.flush rs :=
    ⟨hkept, h.wal, hrep, h.logged.flush, h.sound.flush, h.l0.install hticks.take hrd f,
      h.l1.mono _⟩
  rw [← List.append_assoc]
  exact h₁.maybeCompact hcfg hio.compact hticks.drop

/-! ### Writes -/

/-- A record that is in the log and nowhere else yet. -/
theorem append (hcfg : cfg.Opens) (h : e.Ranked cfg width used s rs)
    {io : WriteIo cfg.cipher} {op : WalOp} {key value : Bytes} {seq : Nat} {e' : Engine}
    (hop : op = .kSet ∨ op = .kDelete)
    (hlog : e.logWrite cfg io op key value = (.ok seq, e'))
    (hread : e.wal.AppendReadable e'.wal) :
    e'.Ranked cfg width used s (rs ++ [⟨op, seq, io.ts % 2 ^ 64, key, value⟩]) := by
  obtain ⟨hkept, -⟩ := h.kept.logWrite (rule hcfg) hop hlog hread
  obtain ⟨hopen, -, w, happ, rfl⟩ := logWrite_ok hlog
  have hwal : w.isOpen = true := by
    obtain ⟨hw, -, -, -, encoded, -, -, rfl⟩ := append_eq_of_ok happ
    exact hw
  exact ⟨hkept, hwal.trans hopen.symm, ⟨h.rep.mem, h.rep.l0, h.rep.l1⟩,
    h.logged.imp fun k v hl => hl.mono fun r hr => List.mem_append_left _ hr, h.sound,
    h.l0, h.l1⟩

/-- The version of the last record goes into the memtable. -/
theorem put {r : WalRecord} {v : MemValue}
    (h : e.Ranked cfg width used s (rs ++ [r])) (hold : s.Each (Logged rs))
    (hv : r.version? = some v) :
    Engine.Ranked cfg width used { e with memtable := e.memtable.put r.key v }
      (s.write r.key v) (rs ++ [r]) := by
  have hlogged : Logged (rs ++ [r]) r.key v :=
    ⟨r, List.mem_append_right _ List.mem_cons_self, rfl, hv⟩
  have hseqs := h.kept.disk.seqs
  rw [List.length_append, List.length_singleton, List.range'_1_concat, List.map_append] at hseqs
  obtain ⟨hrs, hr⟩ := List.append_inj' hseqs rfl
  refine ⟨h.kept.put hlogged, h.wal, ⟨?_, h.rep.l0, h.rep.l1⟩, h.logged.write hlogged, ?_,
    h.l0, h.l1⟩
  · rw [MemTable.table_put, h.rep.mem]
    rfl
  · -- the last record has the largest number
    refine h.sound.write (n := rs.length) (hold.imp ?_) r.key ?_
    · intro k w ⟨r', hr', _, hw⟩
      have hmem : r'.seq ∈ rs.map WalRecord.seq := List.mem_map.mpr ⟨r', hr', rfl⟩
      rw [hrs, List.mem_range'_1] at hmem
      rw [(WalRecord.version?_spec hw).1]
      omega
    · have : r.seq = 1 + rs.length := List.singleton_inj.mp hr
      rw [(WalRecord.version?_spec hv).1]
      omega

/-- The last part of `Set` when the memtable has room for the record. -/
theorem applySet_small {ts seq : Nat} {key value : Bytes}
    (h : e.Ranked cfg width used s (rs ++ [⟨.kSet, seq, ts, key, value⟩]))
    (hold : s.Each (Logged rs)) (hkey : key ≠ []) (io : FlushIo cfg.cipher)
    (hsmall : ¬ (e.memtable.put key ⟨value, seq, false⟩).memoryBudget
      ≤ (e.memtable.put key ⟨value, seq, false⟩).approxMemory) :
    (e.applySet cfg io key value seq).2.Ranked cfg width used
      (s.write key ⟨value, seq, false⟩) (rs ++ [⟨.kSet, seq, ts, key, value⟩]) := by
  rw [Engine.applySet, MemTable.set_of_ne_nil hkey]
  dsimp only
  rw [if_neg hsmall]
  exact h.put hold (v := ⟨value, seq, false⟩) rfl

/-- The last part of `Set` when the memtable is full with it. -/
theorem applySet_full (hcfg : cfg.Opens) {ts seq : Nat} {key value : Bytes}
    (h : e.Ranked cfg width used s (rs ++ [⟨.kSet, seq, ts, key, value⟩]))
    (hold : s.Each (Logged rs)) (hkey : key ≠ []) (hopen : e.isOpen = true)
    {io : FlushIo cfg.cipher} (hio : io.Clean)
    (hfull : (e.memtable.put key ⟨value, seq, false⟩).memoryBudget
      ≤ (e.memtable.put key ⟨value, seq, false⟩).approxMemory)
    (hticks : Ticks width used (Engine.flushReadings cfg io
      { e with memtable := e.memtable.put key ⟨value, seq, false⟩ })) :
    (e.applySet cfg io key value seq).2.Ranked cfg width
      (used ++ Engine.flushReadings cfg io
        { e with memtable := e.memtable.put key ⟨value, seq, false⟩ })
      (Lsm.flushed (s.write key ⟨value, seq, false⟩))
      (rs ++ [⟨.kSet, seq, ts, key, value⟩]) := by
  have hput := h.put hold (v := ⟨value, seq, false⟩) rfl
  have hflush := hput.flushMemTable hcfg hio hticks
  rw [if_neg (by simp [hopen])] at hflush
  rw [Engine.applySet, MemTable.set_of_ne_nil hkey]
  dsimp only
  rw [if_pos hfull]
  rcases hf : Engine.flushMemTable cfg io
    { e with memtable := e.memtable.put key ⟨value, seq, false⟩ } with ⟨res, e'⟩
  rw [hf] at hflush
  cases res with
  | error err => exact hflush
  | ok n => exact hflush

/-! ### Closing and opening -/

theorem close (h : e.Ranked cfg width used s rs) (io : CloseIo) :
    (e.close io).2.Ranked cfg width used s rs := by
  have hkept : (e.close io).2.Durable cfg rs := Engine.Kept.close h.kept io
  unfold Engine.close at hkept ⊢
  by_cases hopen : e.isOpen = false
  · rw [if_pos hopen]
    exact h
  · rw [if_neg hopen] at hkept ⊢
    have hwal : e.wal.isOpen = true := h.wal.trans (by simpa using hopen)
    refine ⟨hkept, ?_, ⟨h.rep.mem, h.rep.l0, h.rep.l1⟩, h.logged, h.sound, h.l0, h.l1⟩
    rw [Wal.close, if_pos hwal]

/-- **Opening a directory** whose levels stand on their shelves: the tables
are the same, the memtable holds the newest version of every key, and the
engine is open. -/
theorem opened (hcfg : cfg.Opens) {e₀ : Engine} (hkept : e₀.Durable cfg rs)
    (hshut : e₀.Shut) {rds0 rds1 : List SstableReader}
    (h0 : Shelved width used e₀.l0Dir rds0) (h1 : Shelved width used e₀.l1Dir rds1)
    (hat0 : List.Forall₂ (TableAt cfg.cipher e₀.l0Dir) rds0 s.l0)
    (hat1 : List.Forall₂ (TableAt cfg.cipher e₀.l1Dir) rds1 s.l1)
    (hlogged : s.Each (Logged rs)) (hsound : s.Sound) {io : OpenIo} (hio : io.Clean) :
    (e₀.open cfg io).2.Ranked cfg width used (Lsm.reopened rs s) rs ∧
      (e₀.open cfg io).2.isOpen = true := by
  have hwal : (e₀.wal.open cfg.platform cfg.cipher cfg.opts.walSegmentSizeBytes
      io.wal).1.isOk = true := by
    rw [hio.wal]
    exact wal_open_ok hshut.wal hcfg.pos hcfg.max
  obtain ⟨hlog, -, -⟩ := open_log hshut.wal hwal
  rw [hkept.disk.recovered] at hlog
  have hwopen := hlog.isOpen
  have hreplay := hlog.replay Engine.replayRecord true e₀.memtable
  rw [runRecords_replay rs _ hkept.disk.writes] at hreplay
  obtain ⟨l0, hopen0, hats0, hshelf0⟩ := h0.reload hcfg.lawful hat0 hio.readsL0
  obtain ⟨l1, hopen1, hats1, hshelf1⟩ := h1.reload hcfg.lawful hat1 hio.readsL1
  have hopened : e₀.open cfg io = (.ok 0, _) := (open_ok_iff hshut.isOpen).mpr
    ⟨hio.createL0, hio.createL1, hwal, by rw [hio.listL0, hopen0]; rfl,
      by rw [hio.listL1, hopen1]; rfl, by rw [hreplay]; rfl, rfl⟩
  have hkept' : (e₀.open cfg io).2.Durable cfg rs := Engine.Kept.open hkept hshut io
  rw [hopened] at hkept' ⊢
  rw [hio.listL0, hio.listL1, hopen0, hopen1, hreplay] at hkept' ⊢
  have hmem := replayed_table hkept.disk.writes hkept.mem
  have hreplays := replays_replayed rs hkept.disk.writes (m := { memoryBudgetBytes := 0 }) rfl
  have hseqs : (rs.map WalRecord.seq).Pairwise (· < ·) := by
    rw [hkept.disk.seqs]
    exact List.pairwise_lt_range'
  obtain ⟨w, hcounts⟩ := hkept.disk.exists_counts
  refine ⟨⟨hkept', hwopen, ⟨hmem, hats0, hats1⟩, ?_, ?_, hshelf0, hshelf1⟩, rfl⟩
  · intro k v hv
    rw [Lsm.hits_path] at hv
    rcases List.mem_append.mp hv with hv | hv
    · exact hreplays.logged k v (Option.mem_toList.mp hv)
    · refine hlogged k v ?_
      rw [Lsm.hits_path]
      exact List.mem_append_right _ hv
  · refine hsound.withMem fun k v hv u hu => ?_
    -- a logged version with the same number is the same version
    have hlu := hlogged k u hu
    have hle := replayed_newest rs hkept.disk.writes hseqs hv hlu
    rcases Nat.lt_or_eq_of_le hle with hlt | heq
    · exact Or.inl hlt
    · obtain ⟨r, hr, -, hrv⟩ := hreplays.logged k v hv
      obtain ⟨r', hr', -, hru⟩ := hlu
      have hsame : r = r' := hcounts.seq_inj hr hr' (by
        rw [← (WalRecord.version?_spec hrv).1, ← (WalRecord.version?_spec hru).1, heq])
      subst hsame
      exact Or.inr (Option.some.inj (hrv.symm.trans hru))

theorem reopen (hcfg : cfg.Opens) (h : e.Ranked cfg width used s rs) {io : OpenIo}
    (hio : io.Clean) :
    (e.open cfg io).2.Ranked cfg width used
        (if e.isOpen = true then s else Lsm.reopened rs s) rs ∧
      (e.open cfg io).2.isOpen = true := by
  by_cases hopen : e.isOpen = true
  · rw [Engine.open, if_pos hopen, if_pos hopen]
    exact ⟨h, hopen⟩
  · have hshut : e.isOpen = false := by simpa using hopen
    rw [if_neg hopen]
    exact opened hcfg h.kept ⟨hshut, h.wal.trans hshut⟩ h.l0 h.l1 h.rep.l0 h.rep.l1 h.logged
      h.sound hio

theorem restart (hcfg : cfg.Opens) (h : e.Ranked cfg width used s rs) {io : OpenIo}
    (hio : io.Clean) :
    ((e.boot cfg).open cfg io).2.Ranked cfg width used (Lsm.reopened rs s) rs ∧
      ((e.boot cfg).open cfg io).2.isOpen = true :=
  opened hcfg (Engine.Kept.boot h.kept) (Engine.boot_booted cfg e).toShut h.l0 h.l1 h.rep.l0
    h.rep.l1 h.logged h.sound hio

end Engine.Ranked

theorem durable_of_open {cfg : Config} {io : OpenIo} {e : Engine}
    (hopen : (Engine.fresh cfg).open cfg io = (.ok 0, e)) : e.Durable cfg [] := by
  have hstart := Engine.Kept.open (Engine.fresh_kept cfg (TableFile cfg.cipher)) ⟨rfl, rfl⟩ io
  rw [hopen] at hstart
  exact hstart

/-- The engine after `Open` on an empty directory. -/
theorem ranked_of_open {cfg : Config} (hcfg : cfg.Reliable) {io : OpenIo} {e : Engine}
    (hopen : (Engine.fresh cfg).open cfg io = (.ok 0, e)) (width : Nat) :
    cfg.Opens ∧ e.Ranked cfg width [] ⟨SortedMap.empty, [], []⟩ [] := by
  have hopened := (open_ok_iff rfl).mp hopen
  obtain ⟨-, hpos, hmax⟩ := open_eq_of_ok rfl hopened.wal
  have hinv := inv_of_open hopen
  refine ⟨⟨hcfg, hpos, hmax⟩, durable_of_open hopen, ?_, hinv.rep, hinv.logged, hinv.sound,
    ?_, ?_⟩
  · rw [hinv.isOpen, hopened.eq]
    exact (open_log rfl hopened.wal).1.isOpen
  · have hnil : e.l0Tables = [] := by
      rw [← List.length_eq_zero_iff, hinv.rep.length_l0, List.length_nil]
    rw [hnil, hopened.eq]
    exact Shelved.empty width
  · have hnil : e.l1Tables = [] := by
      rw [← List.length_eq_zero_iff, hinv.rep.l1.length_eq, List.length_nil]
    rw [hnil, hopened.eq]
    exact Shelved.empty width

/-- Where no table is cut a scan sees what `Get` sees. -/
theorem Engine.Rep.scan_newest {cfg : Config} {e : Engine} {s : Lsm Bytes Bytes}
    (h : e.Rep cfg s) (hsound : s.Sound) {start k : Bytes} {limit : Nat}
    (hk : start.isPrefixOf k = true) (huncut : e.Uncut cfg start limit) :
    (merge (e.scanCandidates cfg start limit)).find k = search s.path k := by
  have hcount : ∀ {dir : SortedMap Bytes Bytes} {rds : List SstableReader}
      {ts : List (Table Bytes Bytes)}, List.Forall₂ (TableAt cfg.cipher dir) rds ts →
      (∀ rd ∈ rds, ((rd.allRecords cfg.cipher (fun _ => {}) (dir.find rd.path)).filter
        fun r => start.isPrefixOf r.key).length ≤ limit * 2 % 2 ^ 64) →
      ∀ t ∈ ts, (t.entries.filter fun x => startsWith start x.1).length
        ≤ limit * 2 % 2 ^ 64 := by
    intro dir rds ts hats
    induction hats with
    | nil => intro _ t ht; cases ht
    | cons hhead _ ih =>
        intro hall t ht
        rcases List.mem_cons.mp ht with rfl | ht
        · obtain ⟨file, hfile, -, hreads⟩ := hhead
          have hrd := hall _ List.mem_cons_self
          rw [hfile, hreads.allRecords, List.filter_map, List.length_map] at hrd
          exact hrd
        · exact ih (fun rd hrd => hall rd (List.mem_cons_of_mem _ hrd)) t ht
  rw [h.scanCandidates,
    find_merge_path ((Lsm.scanPath_parts _ _ s).ordered hsound)]
  refine Lsm.search_scanPath hk (Lsm.not_hidden_of_le hk fun t ht => ?_)
  rcases List.mem_append.mp ht with ht | ht
  · exact hcount h.l0 huncut.1 t (List.mem_reverse.mp ht)
  · exact hcount h.l1 huncut.2 t (List.mem_reverse.mp ht)

end VaultKV
