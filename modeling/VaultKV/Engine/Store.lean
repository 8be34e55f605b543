import VaultKV.Engine.Budget

/-!
# Engine — the store without its files

What an engine and its data directory come to when no I/O fails: the tree of
tables, the records of the log, and whether the engine is open (`Store`).
`Store.act` is a FUNCTION on these three; bytes, file names, offsets and the
running estimate of the memtable's size are gone. `Engine.Stands.act` is the
refinement: every operation, `Close`, `Open` and new process does to the
store behind the engine what `Store.act` says.
-/

namespace VaultKV

open Lib

/-- What an engine and its directory stand for. -/
structure Store where
  isOpen : Bool
  tree : Lsm Bytes Bytes
  log : List WalRecord

/-- What the entries of a table weigh in a memtable. -/
def tableWeight (t : Table Bytes Bytes) : Nat :=
  (t.entries.map fun x => MemTable.estimateBytesForEntry x.1 x.2).sum

namespace Store

variable (cfg : Config)

def logBytes (st : Store) : Nat := (st.log.map WalRecord.size).sum

/-- A record of this key and value reaches the log. -/
def Takes (key value : Bytes) (st : Store) : Prop :=
  st.isOpen = true ∧ key ≠ [] ∧ key.length < 2 ^ 16 ∧ value.length < 2 ^ 32 ∧
    st.logBytes + (59 + (key.length + value.length)) ≤ cfg.opts.walSegmentSizeBytes

instance (key value : Bytes) (st : Store) : Decidable (st.Takes cfg key value) :=
  inferInstanceAs (Decidable (_ ∧ _))

/-- The memtable has reached its budget. -/
def Full (st : Store) : Prop :=
  cfg.opts.memtableBudgetBytes ≤ tableWeight st.tree.mem % 2 ^ 64

instance (st : Store) : Decidable (st.Full cfg) := inferInstanceAs (Decidable (_ ≤ _))

/-- The record gets the next number. -/
def append (op : WalOp) (ts : Nat) (key value : Bytes) (st : Store) : Store :=
  { st with log := st.log ++ [⟨op, st.log.length + 1, ts % 2 ^ 64, key, value⟩] }

def put (key : Bytes) (v : MemValue) (st : Store) : Store :=
  { st with tree := st.tree.write key v }

def flush (st : Store) : Store :=
  if st.isOpen = false then st else { st with tree := Lsm.flushed st.tree }

def compact (st : Store) : Store := { st with tree := Lsm.settled st.tree }

/-- `Set`: a write the peers refuse is in the log and nowhere else. -/
def set (io : WriteIo cfg.cipher) (key value : Bytes) (st : Store) : Store :=
  if st.Takes cfg key value then
    let logged := st.append .kSet io.ts key value
    if (Engine.replicate cfg io.calls).isOk then
      let st' := logged.put key ⟨value, st.log.length + 1, false⟩
      if st'.Full cfg then st'.flush else st'
    else logged
  else st

def delete (io : WriteIo cfg.cipher) (key : Bytes) (st : Store) : Store :=
  if st.Takes cfg key [] then
    let logged := st.append .kDelete io.ts key []
    if (Engine.replicate cfg io.calls).isOk then
      logged.put key ⟨[], st.log.length + 1, true⟩
    else logged
  else st

def step (op : Op cfg.cipher) (st : Store) : Store :=
  match op with
  | .set io key value => st.set cfg io key value
  | .delete io key => st.delete cfg io key
  | .flush _ => st.flush
  | .compact _ => st.compact

/-- The log is replayed into the memtable. -/
def reopen (st : Store) : Store :=
  { st with isOpen := true, tree := Lsm.reopened st.log st.tree }

def act (a : Act cfg.cipher) (st : Store) : Store :=
  match a with
  | .op o => st.step cfg o
  | .close _ => { st with isOpen := false }
  | .reopen _ => if st.isOpen = true then st else st.reopen
  | .restart _ => st.reopen

def actAll : List (Act cfg.cipher) → Store → Store
  | [], st => st
  | a :: as, st => actAll as (st.act cfg a)

/-- What a step adds to the log: one record or none. -/
def logs (a : Act cfg.cipher) (st : Store) : List WalRecord :=
  match a with
  | .op (.set io key value) =>
      if st.Takes cfg key value then [⟨.kSet, st.log.length + 1, io.ts % 2 ^ 64, key, value⟩]
      else []
  | .op (.delete io key) =>
      if st.Takes cfg key [] then [⟨.kDelete, st.log.length + 1, io.ts % 2 ^ 64, key, []⟩]
      else []
  | _ => []

theorem log_flush (st : Store) : st.flush.log = st.log := by
  rw [flush]
  split <;> rfl

/-- **The log only grows.** -/
theorem log_act (a : Act cfg.cipher) (st : Store) :
    (st.act cfg a).log = st.log ++ st.logs cfg a := by
  cases a with
  | close io => exact (List.append_nil _).symm
  | restart io => exact (List.append_nil _).symm
  | reopen io =>
      rw [act]
      split <;> exact (List.append_nil _).symm
  | op o =>
      cases o with
      | set io key value =>
          show (st.set cfg io key value).log = _
          rw [logs, set]
          split
          · dsimp only
            split
            · split
              · exact log_flush _
              · rfl
            · rfl
          · exact (List.append_nil _).symm
      | delete io key =>
          show (st.delete cfg io key).log = _
          rw [logs, delete]
          split
          · dsimp only
            split <;> rfl
          · exact (List.append_nil _).symm
      | flush io => exact (log_flush st).trans (List.append_nil _).symm
      | compact io => exact (List.append_nil _).symm

theorem logBytes_act (a : Act cfg.cipher) (st : Store) :
    (st.act cfg a).logBytes = st.logBytes + ((st.logs cfg a).map WalRecord.size).sum := by
  rw [logBytes, log_act, List.map_append, List.sum_append]
  rfl

theorem logBytes_le_actAll (as : List (Act cfg.cipher)) :
    ∀ st : Store, st.logBytes ≤ (st.actAll cfg as).logBytes := by
  induction as with
  | nil => intro st; exact Nat.le_refl _
  | cons a as ih =>
      intro st
      have hstep := logBytes_act cfg a st
      have hrest := ih (st.act cfg a)
      rw [actAll]
      omega

theorem isOpen_flush (st : Store) : st.flush.isOpen = st.isOpen := by
  rw [flush]
  split <;> rfl

theorem isOpen_set (io : WriteIo cfg.cipher) (key value : Bytes) (st : Store) :
    (st.set cfg io key value).isOpen = st.isOpen := by
  rw [set]
  split
  · dsimp only
    split
    · split
      · exact isOpen_flush _
      · rfl
    · rfl
  · rfl

theorem isOpen_delete (io : WriteIo cfg.cipher) (key : Bytes) (st : Store) :
    (st.delete cfg io key).isOpen = st.isOpen := by
  rw [delete]
  split
  · dsimp only
    split <;> rfl
  · rfl

end Store

/-! ## The refinement -/

/-- The engine and its directory stand for the store. -/
structure Engine.Stands (cfg : Config) (width : Nat) (used : List Nat) (e : Engine)
    (st : Store) : Prop where
  ranked : e.Ranked cfg width used st.tree st.log
  isOpen : e.isOpen = st.isOpen
  budgeted : e.Budgeted cfg

section

variable {cfg : Config} {e : Engine}

theorem isOpen_flushMemTable (io : FlushIo cfg.cipher) (e : Engine) :
    (e.flushMemTable cfg io).2.isOpen = e.isOpen := by
  have hbuild := (buildAndInstall_parts cfg io e).isOpen
  unfold Engine.flushMemTable
  by_cases hopen : e.isOpen = false
  · rw [if_pos hopen]
  rw [if_neg hopen]
  rcases hb : e.buildAndInstall cfg io with ⟨res, e'⟩
  rw [hb] at hbuild
  match res with
  | .error err => exact hbuild
  | .ok none => exact hbuild
  | .ok (some path) => exact ((maybeCompact_parts cfg io.compact e').isOpen).trans hbuild

theorem isOpen_applySet (io : FlushIo cfg.cipher) (key value : Bytes) (seq : Nat) (e : Engine) :
    (e.applySet cfg io key value seq).2.isOpen = e.isOpen := by
  rw [Engine.applySet]
  rcases e.memtable.set key value seq with ⟨res, m⟩
  cases res with
  | error err => rfl
  | ok n =>
      have hflush := isOpen_flushMemTable io { e with memtable := m }
      dsimp only at hflush ⊢
      split
      · rcases hf : Engine.flushMemTable cfg io { e with memtable := m } with ⟨resf, e'⟩
        rw [hf] at hflush
        cases resf <;> exact hflush
      · rfl

theorem isOpen_set (io : WriteIo cfg.cipher) (key value : Bytes) (e : Engine) :
    (e.set cfg io key value).2.isOpen = e.isOpen := by
  apply (Engine.set_writes cfg io key value e).keeps (P := fun e' => e'.isOpen = e.isOpen) rfl
  · intro seq w _
    rfl
  · intro seq w _ hw
    exact (isOpen_applySet io.flush key value seq _).trans hw

theorem isOpen_delete (io : WriteIo cfg.cipher) (key : Bytes) (e : Engine) :
    (e.delete cfg io key).2.isOpen = e.isOpen := by
  apply (Engine.delete_writes cfg io key e).keeps (P := fun e' => e'.isOpen = e.isOpen) rfl
  · intro seq w _
    rfl
  · intro seq w _ hw
    exact hw

end

namespace Engine.Stands

variable {cfg : Config} {width : Nat} {used : List Nat} {e : Engine} {st : Store}

/-- The open log of the engine counts the records of the store. -/
theorem counts (hcfg : cfg.Opens) (h : e.Stands cfg width used st) (hopen : e.isOpen = true) :
    e.wal.isOpen = true ∧ e.wal.writeOffset = st.logBytes ∧
      addU64 e.wal.lastSeq 1 = st.log.length + 1 := by
  have hwal : e.wal.isOpen = true := h.ranked.wal.trans hopen
  obtain ⟨hlog, hoff⟩ := h.ranked.kept.wal hwal
  have hseq := hlog.lastSeq.trans (lastSeqOf_of_seqs h.ranked.kept.disk.seqs)
  obtain ⟨w, hw⟩ := h.ranked.kept.disk.exists_counts
  have hlen := hw.length_le
  have hbound := hcfg.bound
  refine ⟨hwal, hoff, ?_⟩
  rw [hseq, addU64]
  exact Nat.mod_eq_of_lt (by omega)

theorem takes_of_logWrite (hcfg : cfg.Opens) (h : e.Stands cfg width used st)
    {io : WriteIo cfg.cipher} {op : WalOp} {key value : Bytes} {seq : Nat} {e' : Engine}
    (hlog : e.logWrite cfg io op key value = (.ok seq, e')) :
    st.Takes cfg key value ∧ seq = st.log.length + 1 := by
  obtain ⟨hopen, hkey, w, happ, -⟩ := logWrite_ok hlog
  obtain ⟨-, hoff, hseq⟩ := h.counts hcfg hopen
  obtain ⟨-, hk, hv, hnum, encoded, hencoded, hroom, -⟩ := append_eq_of_ok happ
  rw [length_serializeRecord hcfg.lawful hencoded, hoff] at hroom
  exact ⟨⟨h.isOpen ▸ hopen, hkey, hk, hv, hroom⟩, hnum.trans hseq⟩

theorem logWrite_of_takes (hcfg : cfg.Opens) (h : e.Stands cfg width used st)
    (io : WriteIo cfg.cipher) (op : WalOp) {key value : Bytes}
    (ht : st.Takes cfg key value) :
    ∃ e', e.logWrite cfg io op key value = (.ok (st.log.length + 1), e') := by
  obtain ⟨hisOpen, hkey, hk, hv, hroom⟩ := ht
  have hopen : e.isOpen = true := h.isOpen.trans hisOpen
  obtain ⟨hwal, hoff, hseq⟩ := h.counts hcfg hopen
  rw [← hoff] at hroom
  obtain ⟨w, happ⟩ := append_of_room hcfg.lawful hcfg.encrypts hwal io.ts io.rand op hk hv hroom
  rw [hseq] at happ
  exact ⟨{ e with wal := w }, by
    rw [Engine.logWrite, if_neg (by simp [hopen]), if_neg hkey, happ]⟩

/-- A write that does not reach the log. -/
theorem not_takes (hcfg : cfg.Opens) (h : e.Stands cfg width used st)
    {io : WriteIo cfg.cipher} {op : WalOp} {key value : Bytes} {err : Err} {e' : Engine}
    (hlog : e.logWrite cfg io op key value = (.error err, e')) :
    ¬ st.Takes cfg key value := by
  intro ht
  obtain ⟨e'', hok⟩ := h.logWrite_of_takes hcfg io op ht
  rw [hlog] at hok
  cases (Prod.mk.inj hok).1

/-- The memtable is full exactly when the store says so. -/
theorem full_iff (h : e.Stands cfg width used st) (key : Bytes) (v : MemValue) :
    (e.memtable.put key v).memoryBudget ≤ (e.memtable.put key v).approxMemory ↔
      (st.put key v).Full cfg := by
  have hexact : (e.memtable.put key v).approxMemory = (e.memtable.put key v).weight % 2 ^ 64 :=
    h.budgeted.exact.put key v
  have hweight : (e.memtable.put key v).weight = tableWeight (st.put key v).tree.mem := by
    rw [MemTable.weight, MemTable.table_put, h.ranked.rep.mem]
    rfl
  have hbudget : (e.memtable.put key v).memoryBudget = cfg.opts.memtableBudgetBytes :=
    h.budgeted.budget
  rw [hexact, hweight, hbudget]
  rfl

theorem ranked_set (hcfg : cfg.Opens) (h : e.Stands cfg width used st)
    {io : WriteIo cfg.cipher} (hio : io.flush.Clean) {key value : Bytes}
    (hread : e.LogsReadable cfg (.set io key value))
    (hticks : Ticks width used (e.opReadings cfg (.set io key value))) :
    (e.set cfg io key value).2.Ranked cfg width (used ++ e.opReadings cfg (.set io key value))
      (st.set cfg io key value).tree (st.set cfg io key value).log := by
  simp only [Engine.LogsReadable, Engine.set, Engine.opReadings] at hread hticks ⊢
  rcases hlog : e.logWrite cfg io .kSet key value with ⟨res, e₁⟩
  rw [hlog] at hread hticks
  cases res with
  | error err =>
      rw [Store.set, if_neg (h.not_takes hcfg hlog), logWrite_error hlog, List.append_nil]
      exact h.ranked
  | ok seq =>
      obtain ⟨htakes, rfl⟩ := h.takes_of_logWrite hcfg hlog
      have h₁ := h.ranked.append hcfg (Or.inl rfl) hlog hread
      obtain ⟨hopen, hkey, w, -, rfl⟩ := logWrite_ok hlog
      rw [Store.set, if_pos htakes]
      dsimp only at hticks ⊢
      cases hrepl : Engine.replicate cfg io.calls with
      | error err =>
          rw [List.append_nil]
          exact h₁
      | ok n =>
      rw [hrepl, MemTable.set_of_ne_nil hkey] at hticks
      rw [MemTable.set_of_ne_nil hkey, if_pos (Res.isOk_ok n)]
      dsimp only at hticks ⊢
      have hfull := h.full_iff key ⟨value, st.log.length + 1, false⟩
      have hsame : ((st.append .kSet io.ts key value).put key
            ⟨value, st.log.length + 1, false⟩).Full cfg ↔
          (st.put key ⟨value, st.log.length + 1, false⟩).Full cfg := Iff.rfl
      have hopen' : ¬ ((st.append .kSet io.ts key value).put key
          ⟨value, st.log.length + 1, false⟩).isOpen = false := by
        show ¬ st.isOpen = false
        rw [← h.isOpen, hopen]
        exact Bool.noConfusion
      by_cases hf : (e.memtable.put key ⟨value, st.log.length + 1, false⟩).memoryBudget
          ≤ (e.memtable.put key ⟨value, st.log.length + 1, false⟩).approxMemory
      · rw [if_pos hf] at hticks ⊢
        rw [if_pos (hsame.mpr (hfull.mp hf)), Store.flush, if_neg hopen']
        exact h₁.applySet_full hcfg h.ranked.logged hkey hopen hio hf hticks
      · rw [if_neg hf, if_neg fun hc => hf (hfull.mpr (hsame.mp hc)), List.append_nil]
        exact h₁.applySet_small h.ranked.logged hkey io.flush hf

theorem ranked_delete (hcfg : cfg.Opens) (h : e.Stands cfg width used st)
    {io : WriteIo cfg.cipher} {key : Bytes} (hread : e.LogsReadable cfg (.delete io key)) :
    (e.delete cfg io key).2.Ranked cfg width used (st.delete cfg io key).tree
      (st.delete cfg io key).log := by
  simp only [Engine.LogsReadable, Engine.delete] at hread ⊢
  rcases hlog : e.logWrite cfg io .kDelete key [] with ⟨res, e₁⟩
  rw [hlog] at hread
  cases res with
  | error err =>
      rw [Store.delete, if_neg (h.not_takes hcfg hlog), logWrite_error hlog]
      exact h.ranked
  | ok seq =>
      obtain ⟨htakes, rfl⟩ := h.takes_of_logWrite hcfg hlog
      have h₁ := h.ranked.append hcfg (Or.inr rfl) hlog hread
      rw [Store.delete, if_pos htakes]
      dsimp only
      cases Engine.replicate cfg io.calls with
      | error err => exact h₁
      | ok n =>
          rw [if_pos (Res.isOk_ok n)]
          dsimp only
          rw [Engine.applyDelete, MemTable.delete_of_ne_nil (logWrite_ok hlog).2.1]
          exact h₁.put h.ranked.logged (v := ⟨[], st.log.length + 1, true⟩) rfl

/-- **One step** of the engine is one step of the store. -/
theorem act (hcfg : cfg.Opens) (h : e.Stands cfg width used st) {a : Act cfg.cipher}
    (ha : e.QuietAct cfg a) (hticks : Ticks width used (e.actReadings cfg a)) :
    (e.act cfg a).Stands cfg width (used ++ e.actReadings cfg a) (st.act cfg a) := by
  have hbudget := h.budgeted.act a
  cases a with
  | close io =>
      refine ⟨(h.ranked.close io).mono _, ?_, hbudget⟩
      show (e.close io).2.isOpen = false
      rw [Engine.close]
      split
      · assumption
      · rfl
  | reopen io =>
      obtain ⟨hranked, hopen⟩ := h.ranked.reopen hcfg ha
      rw [h.isOpen] at hranked
      rw [Store.act]
      by_cases hst : st.isOpen = true
      · rw [if_pos hst] at hranked ⊢
        exact ⟨hranked.mono _, hopen.trans hst.symm, hbudget⟩
      · rw [if_neg hst] at hranked ⊢
        exact ⟨hranked.mono _, hopen, hbudget⟩
  | restart io =>
      obtain ⟨hranked, hopen⟩ := h.ranked.restart hcfg ha
      exact ⟨hranked.mono _, hopen, hbudget⟩
  | op o =>
      cases o with
      | set io key value =>
          exact ⟨h.ranked_set hcfg ha.1 ha.2 hticks,
            (isOpen_set io key value e).trans
              (h.isOpen.trans (st.isOpen_set cfg io key value).symm), hbudget⟩
      | delete io key =>
          exact ⟨(h.ranked_delete hcfg ha.2).mono _,
            (isOpen_delete io key e).trans
              (h.isOpen.trans (st.isOpen_delete cfg io key).symm), hbudget⟩
      | flush io =>
          have hranked := h.ranked.flushMemTable hcfg ha.1 hticks
          refine ⟨?_, (isOpen_flushMemTable io e).trans (h.isOpen.trans st.isOpen_flush.symm),
            hbudget⟩
          show Engine.Ranked cfg width _ _ st.flush.tree st.flush.log
          rw [h.isOpen] at hranked
          rw [Store.flush]
          by_cases hst : st.isOpen = false
          · rw [if_pos hst] at hranked ⊢
            exact hranked
          · rw [if_neg hst] at hranked ⊢
            exact hranked
      | compact io =>
          exact ⟨h.ranked.maybeCompact hcfg ha.1 hticks,
            (maybeCompact_parts cfg io e).isOpen.trans h.isOpen, hbudget⟩

/-- **Whole runs.** -/
theorem actAll (hcfg : cfg.Opens) (acts : List (Act cfg.cipher)) :
    ∀ {e : Engine} {used : List Nat} {st : Store}, e.Stands cfg width used st →
      e.Quiet cfg acts → Ticks width used (e.readings cfg acts) →
      (e.actAll cfg acts).Stands cfg width (used ++ e.readings cfg acts)
        (st.actAll cfg acts) := by
  induction acts with
  | nil =>
      intro e used st h _ _
      exact ⟨h.ranked.mono _, h.isOpen, h.budgeted⟩
  | cons a acts ih =>
      intro e used st h hquiet hticks
      rw [Engine.readings] at hticks ⊢
      rw [← List.append_assoc]
      exact ih (h.act hcfg hquiet.1 hticks.take) hquiet.2 hticks.drop

end Engine.Stands

/-- The store of an empty directory. -/
def Store.empty : Store := ⟨true, ⟨SortedMap.empty, [], []⟩, []⟩

/-- The engine after `Open` on an empty directory. -/
theorem stands_of_open {cfg : Config} (hcfg : cfg.Reliable) {io : OpenIo} {e : Engine}
    (hopen : (Engine.fresh cfg).open cfg io = (.ok 0, e)) (width : Nat) :
    cfg.Opens ∧ e.Stands cfg width [] Store.empty := by
  obtain ⟨hopens, hranked⟩ := ranked_of_open hcfg hopen width
  refine ⟨hopens, hranked, (inv_of_open hopen).isOpen, ?_⟩
  have hfresh : (Engine.fresh cfg).Budgeted cfg := Engine.Budgeted.boot (Engine.fresh cfg)
  have hbudget := hfresh.open io
  rw [hopen] at hbudget
  exact hbudget

/-! ## The first hit is the newest -/

/-- **The first hit is the newest.** In every state that writes, flushes,
compactions, closes and opens reach from an empty directory, with no I/O
failure and clock readings that increase with one width: the versions of a
key in the order `Get` meets them have falling numbers, `Get` decides on the
first, none has a larger number, and a scan that cuts no table takes the
same one. -/
theorem first_hit_newest {cfg : Config} (hcfg : cfg.Standalone) {io : OpenIo} {e : Engine}
    (hopen : (Engine.fresh cfg).open cfg io = (.ok 0, e)) {acts : List (Act cfg.cipher)}
    (hquiet : e.Quiet cfg acts) {width : Nat} (hclock : Ticks width [] (e.readings cfg acts))
    (k : Bytes) :
    (((e.actAll cfg acts).versionsMet cfg k).Pairwise fun v w => w.seq ≤ v.seq) ∧
    ((e.actAll cfg acts).isOpen = true → k ≠ [] → (e.actAll cfg acts).get cfg k =
      match ((e.actAll cfg acts).versionsMet cfg k).head? with
      | some v => Engine.answerOf v
      | none => .error (Status.notFound "key not found")) ∧
    (∀ v ∈ ((e.actAll cfg acts).versionsMet cfg k).head?,
      ∀ w ∈ (e.actAll cfg acts).versionsMet cfg k, w.seq ≤ v.seq) ∧
    ∀ start limit, start.isPrefixOf k = true → (e.actAll cfg acts).Uncut cfg start limit →
      (merge ((e.actAll cfg acts).scanCandidates cfg start limit)).find k
        = ((e.actAll cfg acts).versionsMet cfg k).head? := by
  obtain ⟨hopens, h₀⟩ := stands_of_open hcfg.toReliable hopen width
  have h := (h₀.actAll hopens acts hquiet hclock).ranked
  have hfalling : (hits (Store.empty.actAll cfg acts).tree.path k).Pairwise fun v w => w.seq ≤ v.seq :=
    (h.sound k).imp fun hvw => hvw.elim Nat.le_of_lt fun heq => heq ▸ Nat.le_refl _
  rw [h.rep.versionsMet, ← search_eq_head]
  refine ⟨hfalling, fun hisOpen hk => h.rep.get_eq hisOpen hk, ?_, ?_⟩
  · intro v hv w hw
    rw [search_eq_head] at hv
    obtain ⟨rest, hrest⟩ := List.head?_eq_some_iff.mp hv
    rw [hrest] at hw hfalling
    rcases List.mem_cons.mp hw with rfl | hw
    · exact Nat.le_refl _
    · exact (List.pairwise_cons.mp hfalling).1 w hw
  · intro start limit hstart huncut
    exact h.rep.scan_newest h.sound hstart huncut

/-- A flush at a given clock reading. -/
def Small.flushAt (budget nanos : Nat) : Act (smallConfig budget).cipher :=
  .op (.flush { FlushIo.quiet (0 : Nat) with nanos := nanos })

/-- A key is set and flushed, deleted by the next process and flushed again,
and replayed by a third one. -/
def threeProcesses : List (Act (smallConfig 4096).cipher) :=
  [.op (Small.set 4096 97 1), Small.flushAt 4096 10, .close {}, .restart {},
   .op (Small.delete 4096 97), Small.flushAt 4096 11, .close {}, .restart {}]

theorem threeProcesses_falling :
    (((Small.opened 4096).actAll (smallConfig 4096) threeProcesses).versionsMet
      (smallConfig 4096) [97]).map Version.seq = [2, 2, 1] ∧
    (((Small.opened 4096).actAll (smallConfig 4096) threeProcesses).versionsMet
      (smallConfig 4096) [97]).Pairwise fun v w => w.seq ≤ v.seq := by
  refine ⟨by decide +kernel, (@first_hit_newest (smallConfig 4096)
    (smallConfig_standalone 4096) {} (Small.opened 4096)
    (Small.opened_ok 4096 (by decide +kernel)) threeProcesses ?_ 2 (by decide +kernel)
    [97]).1⟩
  have hopen : OpenIo.Clean {} := ⟨rfl, rfl, rfl, rfl, rfl, fun _ => rfl, fun _ => rfl⟩
  have hflush : ∀ n, FlushIo.Clean (c := (smallConfig 4096).cipher)
      { FlushIo.quiet (0 : Nat) with nanos := n } := fun n =>
    ⟨⟨rfl, rfl, rfl, rfl⟩, rfl,
      ⟨fun _ => rfl, fun _ _ => rfl, ⟨rfl, rfl, rfl, rfl⟩⟩, rfl, fun _ => rfl⟩
  exact ⟨⟨FlushIo.quiet_clean _, by decide +kernel⟩, ⟨hflush 10, trivial⟩, trivial, hopen,
    ⟨trivial, by decide +kernel⟩, ⟨hflush 11, trivial⟩, trivial, hopen, trivial⟩

end VaultKV
