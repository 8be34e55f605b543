import VaultKV.Engine.Durable

/-!
# Engine — recovery over any number of process lifetimes

Replaying the log rebuilds the memtable, and the memtable then holds EVERY
key that was ever logged: whatever the tables on disk say about such a key
(an old version, a version whose tombstone was dropped, the same version
twice) is never looked at. A key the tables know was logged
(`Engine.Durable`), so nothing is left for the tables to answer.
-/

namespace VaultKV

open Lib

/-! ## Writes and their last ones -/

/-- A write: a key and the answer it asks for. -/
abbrev Write := Bytes × Option Bytes

/-- The write a record stands for. -/
def WalRecord.write (r : WalRecord) : Write :=
  (r.key, if r.op = .kSet then some r.value else none)

/-- Each key's last write. -/
def lastWrite (ws : List Write) : Bytes → Option Bytes :=
  ws.foldl (fun m w => Function.update m w.1 w.2) fun _ => none

/-! ## Replay -/

/-- The memtable after the records. -/
def replayed (rs : List WalRecord) (m : MemTable) : MemTable :=
  rs.foldl (fun m r => match r.version? with
    | some v => m.put r.key v
    | none => m) m

/-- The records are writes. -/
def Writes (rs : List WalRecord) : Prop :=
  ∀ r ∈ rs, r.key ≠ [] ∧ (r.op = .kSet ∨ r.op = .kDelete)

theorem version?_write {r : WalRecord} (h : r.op = .kSet ∨ r.op = .kDelete) :
    ∃ v, r.version? = some v ∧ v.answer = r.write.2 := by
  obtain ⟨op, seq, ts, key, value⟩ := r
  rcases h with h | h
  · obtain rfl : op = .kSet := h
    exact ⟨_, rfl, rfl⟩
  · obtain rfl : op = .kDelete := h
    exact ⟨_, rfl, rfl⟩

theorem replayRecord_eq {r : WalRecord} (hkey : r.key ≠ [])
    (hop : r.op = .kSet ∨ r.op = .kDelete) {v : MemValue} (hv : r.version? = some v)
    (m : MemTable) : Engine.replayRecord m r = (.ok r.seq, m.put r.key v) := by
  obtain ⟨op, seq, ts, key, value⟩ := r
  rcases hop with h | h
  · obtain rfl : op = .kSet := h
    obtain rfl := Option.some.inj hv
    exact MemTable.set_of_ne_nil hkey value seq m
  · obtain rfl : op = .kDelete := h
    obtain rfl := Option.some.inj hv
    exact MemTable.delete_of_ne_nil hkey seq m

/-- The callback takes every record of the log. -/
theorem runRecords_replay (rs : List WalRecord) :
    ∀ m, Writes rs → runRecords Engine.replayRecord rs m = (.ok 0, replayed rs m) := by
  induction rs with
  | nil => intro m _; rfl
  | cons r rs ih =>
      intro m h
      obtain ⟨hkey, hop⟩ := h r List.mem_cons_self
      obtain ⟨v, hv, -⟩ := version?_write hop
      rw [runRecords, replayRecord_eq hkey hop hv]
      dsimp only
      rw [ih _ fun r' hr' => h r' (List.mem_cons_of_mem _ hr'), replayed, replayed,
        List.foldl_cons, hv]

/-- What the replayed memtable tells about a key. -/
structure Replays (rs : List WalRecord) (t : Table Bytes Bytes) : Prop where
  logged : ∀ k v, t.find k = some v → Logged rs k v
  holds : ∀ r ∈ rs, (t.find r.key).isSome
  answer : ∀ k, (t.find k).bind Version.answer = lastWrite (rs.map WalRecord.write) k

theorem Replays.nil : Replays [] SortedMap.empty :=
  ⟨fun k v hv => (by cases hv), fun r hr => absurd hr List.not_mem_nil, fun k => rfl⟩

/-- **One more record.** -/
theorem Replays.snoc {rs : List WalRecord} {t : Table Bytes Bytes} (h : Replays rs t)
    {r : WalRecord} (hop : r.op = .kSet ∨ r.op = .kDelete) {v : MemValue}
    (hv : r.version? = some v) : Replays (rs ++ [r]) (t.insert r.key v) := by
  obtain ⟨v', hv', hans⟩ := version?_write hop
  obtain rfl : v' = v := Option.some.inj (hv'.symm.trans hv)
  refine ⟨?_, ?_, ?_⟩
  · intro k w hw
    rw [SortedMap.find_insert] at hw
    by_cases hk : k = r.key
    · rw [if_pos hk] at hw
      obtain rfl := Option.some.inj hw
      exact ⟨r, List.mem_append_right _ List.mem_cons_self, hk.symm, hv⟩
    · rw [if_neg hk] at hw
      exact (h.logged k w hw).mono fun r' hr' => List.mem_append_left _ hr'
  · intro r' hr'
    rw [SortedMap.find_insert]
    by_cases hk : r'.key = r.key
    · rw [if_pos hk]; rfl
    · rw [if_neg hk]
      rcases List.mem_append.mp hr' with hr' | hr'
      · exact h.holds r' hr'
      · exact absurd (by rw [List.mem_singleton.mp hr']) hk
  · intro k
    rw [SortedMap.find_insert, lastWrite, List.map_append, List.foldl_append]
    show _ = Function.update (lastWrite (rs.map WalRecord.write)) r.key r.write.2 k
    by_cases hk : k = r.key
    · subst hk
      rw [if_pos rfl, Function.update_self]
      exact hans
    · rw [if_neg hk, Function.update_of_ne hk]
      exact h.answer k

/-- **Replaying a log** into an empty memtable. -/
theorem replays_replayed (rs : List WalRecord) (hw : Writes rs) {m : MemTable}
    (hm : m.table = SortedMap.empty) : Replays rs (replayed rs m).table := by
  induction rs using List.reverseRecOn with
  | nil =>
      rw [replayed, List.foldl_nil, hm]
      exact Replays.nil
  | append_singleton rs r ih =>
      obtain ⟨-, hop⟩ := hw r (List.mem_append_right _ List.mem_cons_self)
      obtain ⟨v, hv, -⟩ := version?_write hop
      have hrest := ih fun r' hr' => hw r' (List.mem_append_left _ hr')
      have hput : replayed (rs ++ [r]) m = (replayed rs m).put r.key v := by
        rw [replayed, List.foldl_append, List.foldl_cons, List.foldl_nil, hv]
        rfl
      rw [hput, MemTable.table_put]
      exact hrest.snoc hop hv

/-- Replaying forgets what the memtable held for a logged key. -/
theorem find_replayed_congr {k : Bytes} (rs : List WalRecord) :
    ∀ {m m' : MemTable}, Writes rs →
      ((∃ r ∈ rs, r.key = k) ∨ m.table.find k = m'.table.find k) →
      (replayed rs m).table.find k = (replayed rs m').table.find k := by
  induction rs with
  | nil =>
      intro m m' _ h
      rcases h with ⟨r, hr, -⟩ | h
      · cases hr
      · exact h
  | cons r rs ih =>
      intro m m' hw h
      obtain ⟨v, hv, -⟩ := version?_write (hw r List.mem_cons_self).2
      rw [replayed, replayed, List.foldl_cons, List.foldl_cons, hv]
      refine ih (fun r' hr' => hw r' (List.mem_cons_of_mem _ hr')) ?_
      rw [MemTable.table_put, MemTable.table_put, SortedMap.find_insert,
        SortedMap.find_insert]
      by_cases hk : k = r.key
      · rw [if_pos hk, if_pos hk]
        exact Or.inr rfl
      · rw [if_neg hk, if_neg hk]
        rcases h with ⟨r', hr', hrk⟩ | h
        · rcases List.mem_cons.mp hr' with rfl | hr'
          · exact absurd hrk.symm hk
          · exact Or.inl ⟨r', hr', hrk⟩
        · exact Or.inr h

/-- A memtable of logged versions replays as an empty one does. -/
theorem replayed_table {rs : List WalRecord} (hw : Writes rs) {m : MemTable}
    (hm : ∀ x ∈ m.table.entries, Logged rs x.1 x.2) :
    (replayed rs m).table = (replayed rs { memoryBudgetBytes := 0 }).table := by
  refine SortedMap.ext_find fun k => find_replayed_congr rs hw ?_
  cases hv : m.table.find k with
  | none => exact Or.inr rfl
  | some v =>
      obtain ⟨r, hr, hk, -⟩ := hm (k, v) (SortedMap.find_eq_some_iff.mp hv)
      exact Or.inl ⟨r, hr, hk⟩

/-! ## Opening -/

theorem closed_wal_open {cfg : Config} {w : Wal} {rs : List WalRecord} (hclosed : w.isOpen = false)
    (h : LogOnDisk cfg.cipher cfg.opts.walSegmentSizeBytes w.segment rs) (io : Wal.OpenIo) :
    LogOnDisk cfg.cipher cfg.opts.walSegmentSizeBytes
        (w.open cfg.platform cfg.cipher cfg.opts.walSegmentSizeBytes io).2.segment rs ∧
      ((w.open cfg.platform cfg.cipher cfg.opts.walSegmentSizeBytes io).2.isOpen = true →
        (w.open cfg.platform cfg.cipher cfg.opts.walSegmentSizeBytes io).2.Log cfg.cipher
            cfg.opts.walSegmentSizeBytes rs ∧
          (w.open cfg.platform cfg.cipher cfg.opts.walSegmentSizeBytes io).2.writeOffset
            = (rs.map WalRecord.size).sum) := by
  cases hok : (w.open cfg.platform cfg.cipher cfg.opts.walSegmentSizeBytes io).1.isOk with
  | true =>
      obtain ⟨hlog, hseg, hoff⟩ := open_log hclosed hok
      rw [h.recovered] at hlog hoff
      rw [hseg]
      exact ⟨h.resize, fun _ => ⟨hlog, hoff⟩⟩
  | false =>
      rcases open_error hclosed hok with heq | heq
      · rw [heq, hclosed]
        exact ⟨h, fun hopen => by cases hopen⟩
      · rw [heq]
        exact ⟨h.resize, fun hopen => absurd hopen (by simp [hclosed])⟩

/-- The parts of an engine that loading the tables leaves alone. -/
theorem loadSstablesFromDisk_rest (io : OpenIo) (e : Engine) :
    (e.loadSstablesFromDisk io).2.wal = e.wal ∧
      (e.loadSstablesFromDisk io).2.memtable = e.memtable ∧
      (e.loadSstablesFromDisk io).2.l0Dir = e.l0Dir ∧
      (e.loadSstablesFromDisk io).2.l1Dir = e.l1Dir := by
  unfold Engine.loadSstablesFromDisk
  rcases Engine.openTables e.l0Dir io.readsL0 0 (Engine.tablePaths e.l0Dir io.listL0Fails)
    with ⟨res, l0⟩
  cases res with
  | error err => exact ⟨rfl, rfl, rfl, rfl⟩
  | ok n => exact ⟨rfl, rfl, rfl, rfl⟩

/-- An engine that is not open, nor is its log. -/
structure Engine.Shut (e : Engine) : Prop where
  isOpen : e.isOpen = false
  wal : e.wal.isOpen = false

/-- A process before its `Open`. -/
structure Engine.Booted (e : Engine) : Prop extends Engine.Shut e where
  memtable : e.memtable.table = SortedMap.empty

/-- **`Open` keeps the directory**, whether it succeeds or not. -/
theorem Engine.Kept.open {cfg : Config} {F : List WalRecord → Bytes → Prop} {e : Engine}
    {rs : List WalRecord} (h : e.Kept cfg F rs) (hb : e.Shut) (io : OpenIo) :
    (e.open cfg io).2.Kept cfg F rs := by
  obtain ⟨hdisk, hlog⟩ := closed_wal_open hb.wal h.disk io.wal
  unfold Engine.open
  rw [if_neg (by simp [hb.isOpen])]
  cases io.createL0 with
  | some err => exact h
  | none =>
  cases io.createL1 with
  | some err => exact h
  | none =>
  rcases hw : e.wal.open cfg.platform cfg.cipher cfg.opts.walSegmentSizeBytes io.wal with ⟨resW, w⟩
  rw [hw] at hdisk hlog
  have h₁ : Engine.Kept cfg F { e with wal := w } rs := ⟨hdisk, hlog, h.mem, h.l0, h.l1⟩
  cases resW with
  | error err => exact h₁
  | ok nW =>
  dsimp only
  obtain ⟨hwal, hmem, hd0, hd1⟩ := loadSstablesFromDisk_rest io { e with wal := w }
  rcases hl : Engine.loadSstablesFromDisk io { e with wal := w } with ⟨resL, e₂⟩
  rw [hl] at hwal hmem hd0 hd1
  have h₂ : e₂.Kept cfg F rs :=
    h₁.of_parts hwal (by rw [hmem]; exact h₁.mem) (by rw [hd0]; exact h₁.l0)
      (by rw [hd1]; exact h₁.l1)
  cases resL with
  | error err => exact h₂
  | ok nL =>
  dsimp only
  -- the log is open here, so the replay runs over its records
  have hwopen : w.isOpen = true := by
    have hok : (e.wal.open cfg.platform cfg.cipher cfg.opts.walSegmentSizeBytes io.wal).1.isOk
        = true := by rw [hw]; rfl
    have heq := (open_eq_of_ok hb.wal hok).1
    rw [hw] at heq
    rw [show w = _ from heq]
  have hreplay : e₂.replayWal cfg = (.ok 0, { e₂ with memtable := replayed rs e₂.memtable }) := by
    have hrun := (hlog hwopen).1.replay Engine.replayRecord true e₂.memtable
    rw [runRecords_replay rs _ h.disk.writes] at hrun
    rw [Engine.replayWal, hwal]
    dsimp only
    rw [hrun]
  rw [hreplay]
  refine h₂.of_parts rfl ?_ h₂.l0 h₂.l1
  intro x hx
  rw [replayed_table h.disk.writes h₂.mem] at hx
  exact (replays_replayed rs h.disk.writes rfl).logged x.1 x.2
    (SortedMap.find_eq_some_iff.mpr hx)

/-- **A successful `Open`**: the memtable is the replayed log, and behind it
stand whole tables of logged entries. -/
theorem Engine.Durable.opened {cfg : Config} {e e' : Engine} {rs : List WalRecord} {io : OpenIo}
    (h : e.Durable cfg rs) (hb : e.Booted) (hopen : e.open cfg io = (.ok 0, e')) :
    ∃ s, e'.Rep cfg s ∧ s.Each (Logged rs) ∧ Replays rs s.mem ∧ e'.isOpen = true ∧
      e'.wal.lastSeq = rs.length := by
  have hopened := (open_ok_iff hb.isOpen).mp hopen
  obtain ⟨hlog, -, -⟩ := open_log hb.wal hopened.wal
  rw [h.disk.recovered] at hlog
  have hreplay := hlog.replay Engine.replayRecord true e.memtable
  rw [runRecords_replay rs _ h.disk.writes] at hreplay
  have hreplays := replays_replayed rs h.disk.writes hb.memtable
  obtain ⟨ts0, hts0, hlog0⟩ := openTables_tablesAt h.l0 io.readsL0
    (Engine.tablePaths e.l0Dir io.listL0Fails) 0
  obtain ⟨ts1, hts1, hlog1⟩ := openTables_tablesAt h.l1 io.readsL1
    (Engine.tablePaths e.l1Dir io.listL1Fails) 0
  refine ⟨⟨(replayed rs e.memtable).table, ts0, ts1⟩, ?_, ?_, hreplays, ?_, ?_⟩
  · rw [hopened.eq]
    refine ⟨?_, hts0, hts1⟩
    dsimp only
    rw [hreplay]
  · intro k v hv
    obtain ⟨t, ht, hfind⟩ := mem_hits.mp hv
    rcases List.mem_cons.mp ht with rfl | ht
    · exact hreplays.logged k v hfind
    · rcases List.mem_append.mp ht with ht | ht
      · exact hlog0 t (List.mem_reverse.mp ht) (k, v) (SortedMap.find_eq_some_iff.mp hfind)
      · exact hlog1 t (List.mem_reverse.mp ht) (k, v) (SortedMap.find_eq_some_iff.mp hfind)
  · rw [hopened.eq]
  · rw [hopened.eq]
    exact hlog.lastSeq.trans (lastSeqOf_of_seqs h.disk.seqs)

/-! ## One lifetime -/

namespace Engine

variable (cfg : Config)

/-- The write an operation puts into the log, if its append succeeds. -/
def logged (op : Op cfg.cipher) (e : Engine) : Option Write :=
  match op with
  | .set io key value =>
      if (e.logWrite cfg io .kSet key value).1.isOk then some (key, some value) else none
  | .delete io key =>
      if (e.logWrite cfg io .kDelete key []).1.isOk then some (key, none) else none
  | _ => none

/-- The record an operation appends, if it does, is one the reader takes. -/
def LogsReadable (op : Op cfg.cipher) (e : Engine) : Prop :=
  match op with
  | .set io key value => e.wal.AppendReadable (e.logWrite cfg io .kSet key value).2.wal
  | .delete io key => e.wal.AppendReadable (e.logWrite cfg io .kDelete key []).2.wal
  | _ => True

instance (op : Op cfg.cipher) (e : Engine) : Decidable (e.LogsReadable cfg op) := by
  unfold LogsReadable
  cases op <;> infer_instance

/-- The writes a run puts into the log. -/
def runLogged : List (Op cfg.cipher) → Engine → List Write
  | [], _ => []
  | op :: ops, e => (e.logged cfg op).toList ++ runLogged ops (e.step cfg op).2

def RunReadable : List (Op cfg.cipher) → Engine → Prop
  | [], _ => True
  | op :: ops, e => e.LogsReadable cfg op ∧ RunReadable ops (e.step cfg op).2

instance decidableRunReadable : (ops : List (Op cfg.cipher)) → (e : Engine) →
    Decidable (e.RunReadable cfg ops)
  | [], _ => isTrue trivial
  | op :: ops, e =>
      have := decidableRunReadable ops (e.step cfg op).2
      inferInstanceAs (Decidable (_ ∧ _))

end Engine

section

variable {cfg : Config} {F : List WalRecord → Bytes → Prop} {e : Engine}
  {rs : List WalRecord}

theorem Engine.Kept.set (hrule : FileRule cfg F) (h : e.Kept cfg F rs)
    (io : WriteIo cfg.cipher) (key value : Bytes)
    (hread : e.LogsReadable cfg (.set io key value)) :
    ∃ new, (e.set cfg io key value).2.Kept cfg F (rs ++ new) ∧
      new.map WalRecord.write = (e.logged cfg (.set io key value)).toList := by
  simp only [Engine.LogsReadable, Engine.set, Engine.logged] at hread ⊢
  rcases hlog : e.logWrite cfg io .kSet key value with ⟨res, e₁⟩
  rw [hlog] at hread
  cases res with
  | error err =>
      rw [logWrite_error hlog]
      exact ⟨[], by simpa using h, rfl⟩
  | ok seq =>
      obtain ⟨h₁, hkey⟩ := h.logWrite hrule (Or.inl rfl) hlog hread
      refine ⟨[⟨.kSet, seq, io.ts % 2 ^ 64, key, value⟩], ?_, rfl⟩
      dsimp only
      cases Engine.replicate cfg io.calls with
      | error err => exact h₁
      | ok n =>
          exact h₁.applySet hrule io.flush hkey
            ⟨_, List.mem_append_right _ List.mem_cons_self, rfl, rfl⟩

theorem Engine.Kept.delete (hrule : FileRule cfg F) (h : e.Kept cfg F rs)
    (io : WriteIo cfg.cipher) (key : Bytes) (hread : e.LogsReadable cfg (.delete io key)) :
    ∃ new, (e.delete cfg io key).2.Kept cfg F (rs ++ new) ∧
      new.map WalRecord.write = (e.logged cfg (.delete io key)).toList := by
  simp only [Engine.LogsReadable, Engine.delete, Engine.logged] at hread ⊢
  rcases hlog : e.logWrite cfg io .kDelete key [] with ⟨res, e₁⟩
  rw [hlog] at hread
  cases res with
  | error err =>
      rw [logWrite_error hlog]
      exact ⟨[], by simpa using h, rfl⟩
  | ok seq =>
      obtain ⟨h₁, hkey⟩ := h.logWrite hrule (Or.inr rfl) hlog hread
      refine ⟨[⟨.kDelete, seq, io.ts % 2 ^ 64, key, []⟩], ?_, rfl⟩
      dsimp only
      cases Engine.replicate cfg io.calls with
      | error err => exact h₁
      | ok n =>
          exact h₁.applyDelete hkey
            ⟨_, List.mem_append_right _ List.mem_cons_self, rfl, rfl⟩

/-- **One operation** adds to the directory what it logged. -/
theorem Engine.Kept.step (hrule : FileRule cfg F) (h : e.Kept cfg F rs)
    {op : Op cfg.cipher} (hread : e.LogsReadable cfg op) :
    ∃ new, (e.step cfg op).2.Kept cfg F (rs ++ new) ∧
      new.map WalRecord.write = (e.logged cfg op).toList := by
  cases op with
  | set io key value => exact h.set hrule io key value hread
  | delete io key => exact h.delete hrule io key hread
  | flush io => exact ⟨[], by rw [List.append_nil]; exact h.flushMemTable hrule io, rfl⟩
  | compact io => exact ⟨[], by rw [List.append_nil]; exact h.maybeCompact hrule io, rfl⟩

/-- **A run of one process.** -/
theorem Engine.Kept.run (hrule : FileRule cfg F) (ops : List (Op cfg.cipher)) :
    ∀ {e : Engine} {rs : List WalRecord}, e.Kept cfg F rs → e.RunReadable cfg ops →
      ∃ new, (e.run cfg ops).Kept cfg F (rs ++ new) ∧
        new.map WalRecord.write = e.runLogged cfg ops := by
  induction ops with
  | nil => intro e rs h _; exact ⟨[], by simpa [Engine.run] using h, rfl⟩
  | cons op ops ih =>
      intro e rs h hread
      obtain ⟨new, hstep, hnew⟩ := h.step hrule hread.1
      obtain ⟨more, hrun, hmore⟩ := ih hstep hread.2
      refine ⟨new ++ more, ?_, ?_⟩
      · rw [Engine.run, ← List.append_assoc]
        exact hrun
      · rw [List.map_append, hnew, hmore]
        rfl

theorem Engine.Kept.close (h : e.Kept cfg F rs) (io : CloseIo) :
    (e.close io).2.Kept cfg F rs := by
  unfold Engine.close
  by_cases hopen : e.isOpen = false
  · rw [if_pos hopen]
    exact h
  · rw [if_neg hopen]
    dsimp only
    by_cases hw : e.wal.isOpen = true
    · rw [Wal.close, if_pos hw]
      exact ⟨h.disk, fun hc => (by cases hc), h.mem, h.l0, h.l1⟩
    · rw [Wal.close, if_neg hw]
      exact h.of_parts rfl h.mem h.l0 h.l1

theorem Engine.Kept.boot (h : e.Kept cfg F rs) : (e.boot cfg).Kept cfg F rs :=
  ⟨h.disk, fun hw => (by cases hw), fun x hx => absurd hx List.not_mem_nil, h.l0, h.l1⟩

theorem Engine.boot_booted (cfg : Config) (e : Engine) : (e.boot cfg).Booted :=
  ⟨⟨rfl, rfl⟩, rfl⟩

theorem Engine.Kept.start (h : e.Kept cfg F rs) (io : OpenIo) :
    (((e.boot cfg).open cfg io).2).Kept cfg F rs :=
  h.boot.open (Engine.boot_booted cfg e).toShut io

theorem Engine.fresh_kept (cfg : Config) (F : List WalRecord → Bytes → Prop) :
    (Engine.fresh cfg).Kept cfg F [] :=
  ⟨LogOnDisk.nil _ _, fun hw => (by cases hw), fun x hx => absurd hx List.not_mem_nil,
    DirAll.empty, DirAll.empty⟩

end

/-! ## Many lifetimes -/

/-- The life of one process: its `Open`, its operations, and how it ended
(`none`: it was killed). -/
structure Lifetime (c : Cipher) where
  openIo : OpenIo := {}
  ops : List (Op c)
  close : Option CloseIo := none

namespace Engine

variable (cfg : Config)

/-- A new process after its `Open`. -/
def start (io : OpenIo) (e : Engine) : Engine := ((e.boot cfg).open cfg io).2

def live (l : Lifetime cfg.cipher) (e : Engine) : Engine :=
  let ended := (e.start cfg l.openIo).run cfg l.ops
  match l.close with
  | none => ended
  | some io => (ended.close io).2

def liveAll : List (Lifetime cfg.cipher) → Engine → Engine
  | [], e => e
  | l :: ls, e => liveAll ls (e.live cfg l)

/-- The writes whose append succeeded, over all lifetimes. -/
def history : List (Lifetime cfg.cipher) → Engine → List Write
  | [], _ => []
  | l :: ls, e => (e.start cfg l.openIo).runLogged cfg l.ops ++ history ls (e.live cfg l)

def HistoryReadable : List (Lifetime cfg.cipher) → Engine → Prop
  | [], _ => True
  | l :: ls, e =>
      (e.start cfg l.openIo).RunReadable cfg l.ops ∧ HistoryReadable ls (e.live cfg l)

instance decidableHistoryReadable : (ls : List (Lifetime cfg.cipher)) → (e : Engine) →
    Decidable (e.HistoryReadable cfg ls)
  | [], _ => isTrue trivial
  | l :: ls, e =>
      have := decidableHistoryReadable ls (e.live cfg l)
      inferInstanceAs (Decidable (_ ∧ _))

end Engine

theorem Engine.Durable.live {cfg : Config} (hc : cfg.cipher.Lawful)
    (hcap : cfg.opts.walSegmentSizeBytes < 2 ^ 57) {e : Engine} {rs : List WalRecord}
    (h : e.Durable cfg rs) (l : Lifetime cfg.cipher)
    (hread : (e.start cfg l.openIo).RunReadable cfg l.ops) :
    ∃ new, (e.live cfg l).Durable cfg (rs ++ new) ∧
      new.map WalRecord.write = (e.start cfg l.openIo).runLogged cfg l.ops := by
  obtain ⟨new, hrun, hnew⟩ := Engine.Kept.run (tableFile_rule hc hcap) l.ops
    (h.start l.openIo) hread
  refine ⟨new, ?_, hnew⟩
  rw [Engine.live]
  cases l.close with
  | none => exact hrun
  | some io => exact hrun.close io

/-- **Any number of lifetimes**, with any failures: the directory holds the
history. -/
theorem Engine.Durable.liveAll {cfg : Config} (hc : cfg.cipher.Lawful)
    (hcap : cfg.opts.walSegmentSizeBytes < 2 ^ 57) (ls : List (Lifetime cfg.cipher)) :
    ∀ {e : Engine} {rs : List WalRecord}, e.Durable cfg rs → e.HistoryReadable cfg ls →
      ∃ new, (e.liveAll cfg ls).Durable cfg (rs ++ new) ∧
        new.map WalRecord.write = e.history cfg ls := by
  induction ls with
  | nil => intro e rs h _; exact ⟨[], by simpa [Engine.liveAll] using h, rfl⟩
  | cons l ls ih =>
      intro e rs h hread
      obtain ⟨new, hlive, hnew⟩ := h.live hc hcap l hread.1
      obtain ⟨more, hrest, hmore⟩ := ih hlive hread.2
      refine ⟨new ++ more, ?_, ?_⟩
      · rw [Engine.liveAll, ← List.append_assoc]
        exact hrest
      · rw [List.map_append, hnew, hmore]
        rfl

/-- A tree whose memtable is the replayed log answers the last writes. -/
theorem Replays.get {rs : List WalRecord} {s : Lsm Bytes Bytes} (h : Replays rs s.mem)
    (hlog : s.Each (Logged rs)) (k : Bytes) :
    s.get k = lastWrite (rs.map WalRecord.write) k := by
  rw [← h.answer k]
  cases hv : s.mem.find k with
  | some v => rw [Lsm.get_eq, hv]; rfl
  | none =>
      -- a key the tables know was logged, and the memtable would hold it
      have hnone : hits s.path k = [] := by
        rw [List.eq_nil_iff_forall_not_mem]
        intro v hin
        obtain ⟨r, hr, rfl, -⟩ := hlog k v hin
        have := h.holds r hr
        rw [hv] at this
        cases this
      rw [Lsm.get, search_eq_head, hnone]
      rfl

/-- **Recovery is exact.** After any number of process lifetimes on an
initially empty directory, whatever failed in them: whenever the next `Open`
returns `Ok`, `Get` answers each key's last logged write and the log counts
as many records as were appended. -/
theorem recovery_exact {cfg : Config} (hc : cfg.cipher.Lawful)
    (ls : List (Lifetime cfg.cipher)) (hread : (Engine.fresh cfg).HistoryReadable cfg ls)
    (io : OpenIo) {e : Engine}
    (hopen : (((Engine.fresh cfg).liveAll cfg ls).boot cfg).open cfg io = (.ok 0, e)) :
    (∀ k, k ≠ [] →
      Answers (e.get cfg k) (lastWrite ((Engine.fresh cfg).history cfg ls) k)) ∧
      e.wal.lastSeq = ((Engine.fresh cfg).history cfg ls).length := by
  have hbooted := Engine.boot_booted cfg ((Engine.fresh cfg).liveAll cfg ls)
  have hcap : cfg.opts.walSegmentSizeBytes < 2 ^ 57 := by
    obtain ⟨-, -, hmax⟩ := open_eq_of_ok hbooted.wal
      ((open_ok_iff hbooted.isOpen).mp hopen).wal
    have := cfg.platform.maxMap_lt
    omega
  obtain ⟨rs, hdurable, hrs⟩ :=
    Engine.Durable.liveAll hc hcap ls (Engine.fresh_kept cfg _) hread
  rw [List.nil_append] at hdurable
  obtain ⟨s, hrep, hlog, hreplays, hisOpen, hseq⟩ :=
    Engine.Durable.opened hdurable.boot hbooted hopen
  refine ⟨fun k hk => ?_, ?_⟩
  · rw [← hrs, ← hreplays.get hlog k]
    exact hrep.get hisOpen hk
  · rw [hseq, ← hrs, List.length_map]

/-- A process that is killed after a flush, and one that deletes a flushed
key and closes. -/
def twoLives : List (Lifetime (smallConfig 4096).cipher) :=
  [{ ops := [Small.set 4096 97 1, Small.set 4096 98 2, .flush (.quiet (0 : Nat))] },
   { ops := [Small.delete 4096 97], close := some {} }]

/-- The third process. -/
def thirdLife : Engine :=
  ((((Engine.fresh (smallConfig 4096)).liveAll (smallConfig 4096) twoLives).boot
    (smallConfig 4096)).open (smallConfig 4096) {}).2

theorem thirdLife_ok :
    (((Engine.fresh (smallConfig 4096)).liveAll (smallConfig 4096) twoLives).boot
      (smallConfig 4096)).open (smallConfig 4096) {} = (.ok 0, thirdLife) := by
  have hok : ((((Engine.fresh (smallConfig 4096)).liveAll (smallConfig 4096) twoLives).boot
      (smallConfig 4096)).open (smallConfig 4096) {}).1 = .ok 0 := by decide +kernel
  rw [thirdLife, ← hok]

theorem twoLives_recovered :
    (Engine.fresh (smallConfig 4096)).history (smallConfig 4096) twoLives
      = [([97], some [1]), ([98], some [2]), ([97], none)] ∧
    (∀ k, k ≠ [] → Answers (thirdLife.get (smallConfig 4096) k)
      (lastWrite ((Engine.fresh (smallConfig 4096)).history (smallConfig 4096) twoLives) k)) ∧
    thirdLife.wal.lastSeq
      = ((Engine.fresh (smallConfig 4096)).history (smallConfig 4096) twoLives).length :=
  ⟨by decide +kernel, @recovery_exact (smallConfig 4096) (fallback_lawful zeroKey) twoLives
    (by decide +kernel) {} thirdLife thirdLife_ok⟩

end VaultKV
