import VaultKV.Engine.Recovery
import VaultKV.Engine.Steps

/-!
# Engine — crashes inside a flush or a compaction

A table file is created under its FINAL name and filled by the write calls
of `Build`, the last of which rewrites the header. A process that stops in
between leaves the effect of some of the calls; the next `Open` reads every
`.sst` file of the directory and gives up at the first one that does not
open. So does a `Build` that failed and whose process went on: nothing
removes its file.

`CompactPoint` and `FlushPoint` are the places where a process can stop.
Whatever happened before, a table file opens as soon as its header has been
rewritten (`SoundFile`), so the next `Open` can be told from the headers of the
files and from the log.
-/

namespace VaultKV

open Lib

/-- Where a process stops inside `MaybeCompact`: before the output file
exists, with `n` write calls of its `Build` ON DISK, or after `n` removals.
The stream may hold calls back until it is closed, so a process that stops
behind the last call, but before `close`, can still leave fewer. -/
inductive CompactPoint where
  | start
  | building (n : Nat)
  | removing (n : Nat)
  deriving DecidableEq

/-- Where a process stops inside `FlushMemTable`. -/
inductive FlushPoint where
  | start
  | building (n : Nat)
  | compacting (pt : CompactPoint)
  deriving DecidableEq

/-- A call that does not come back. -/
inductive Crash (c : Cipher) where
  | set (io : WriteIo c) (key value : Bytes) (pt : FlushPoint)
  | flush (io : FlushIo c) (pt : FlushPoint)
  | compact (io : CompactIo c) (pt : CompactPoint)

/-- A stream of which the first `n` write calls have reached the disk. -/
def cutStream (n : Nat) (out : OStream) : OStream := { out with calls := out.calls.take n }

namespace Engine

variable (cfg : Config)

/-- The disk a crash inside `MaybeCompact` leaves. -/
def crashCompact (io : CompactIo cfg.cipher) (pt : CompactPoint) (e : Engine) : Engine :=
  if e.l0Tables.length < 4 then e
  else
    let l0Paths := e.l0Tables.map SstableReader.path
    let outPath := sstName io.nanos e.nextSstableId
    let r := e.compactStream cfg io
    match pt with
    | .start => e
    | .building n => { e with l1Dir := putFile e.l1Dir outPath (r.2.map (cutStream n)) }
    | .removing n =>
        let e := { e with l1Dir := putFile e.l1Dir outPath r.2 }
        match r.1, SstableReader.open io.install outPath (e.l1Dir.find outPath) with
        | .ok _, .ok _ =>
            { e with l0Dir := removeFiles io.removeFails 0 (l0Paths.take n) e.l0Dir }
        | _, _ => e

/-- The disk a crash inside `FlushMemTable` leaves. -/
def crashFlush (io : FlushIo cfg.cipher) (pt : FlushPoint) (e : Engine) : Engine :=
  if e.isOpen = false then e
  else
    match pt with
    | .start => e
    | .building n =>
        if (e.memtable.drainSorted true).1 = [] then e
        else { e with l0Dir := putFile e.l0Dir (sstName io.nanos e.nextSstableId)
                                ((e.flushStream cfg io).map (cutStream n)) }
    | .compacting pt =>
        match e.buildAndInstall cfg io with
        | (.ok (some _), e) => e.crashCompact cfg io.compact pt
        | (_, e) => e

/-- The state in which `Set` calls `FlushMemTable`, if it does. -/
def setFlushPoint (io : WriteIo cfg.cipher) (key value : Bytes) (e : Engine) : Option Engine :=
  match e.logWrite cfg io .kSet key value with
  | (.ok seq, e) =>
      match replicate cfg io.calls, e.memtable.set key value seq with
      | .ok _, (.ok _, m) =>
          if m.memoryBudget ≤ m.approxMemory then some { e with memtable := m } else none
      | _, _ => none
  | _ => none

def crash (cr : Crash cfg.cipher) (e : Engine) : Engine :=
  match cr with
  | .set io key value pt =>
      match e.setFlushPoint cfg io key value with
      | some e => e.crashFlush cfg io.flush pt
      | none => (e.set cfg io key value).2
  | .flush io pt => e.crashFlush cfg io pt
  | .compact io pt => e.crashCompact cfg io pt

/-- Every `.sst` file of both levels has its header written. -/
def HeadersWritten (e : Engine) : Prop :=
  ∀ x ∈ e.l0Dir.entries ++ e.l1Dir.entries, hasSstExtension x.1 = true → HeaderWritten x.2

instance (e : Engine) : Decidable e.HeadersWritten :=
  inferInstanceAs (Decidable (∀ x ∈ _, _))

/-- No write that the log yields has an empty key, which the memtable would
refuse. -/
def LogReplays (e : Engine) : Prop :=
  ∀ r ∈ (recovered cfg.cipher cfg.opts.walSegmentSizeBytes
      (Wal.resize e.wal.segment cfg.opts.walSegmentSizeBytes)).1,
    r.op = .kSet ∨ r.op = .kDelete → r.key ≠ []

instance (e : Engine) : Decidable (e.LogReplays cfg) :=
  inferInstanceAs (Decidable (∀ r ∈ _, _))

end Engine

/-- **The states of a data directory and its process**, whatever fails: any
operations, closes, kills, new processes and crashes. -/
inductive Engine.Reached (cfg : Config) : Engine → Prop
  | fresh : Reached cfg (Engine.fresh cfg)
  | start {e : Engine} (io : OpenIo) : Reached cfg e → Reached cfg (e.start cfg io)
  | step {e : Engine} (op : Op cfg.cipher) : Reached cfg e → Reached cfg (e.step cfg op).2
  | close {e : Engine} (io : CloseIo) : Reached cfg e → Reached cfg (e.close io).2
  | crash {e : Engine} (cr : Crash cfg.cipher) :
      Reached cfg e → Reached cfg ((e.crash cfg cr).boot cfg)

/-! ## Sound files in every state -/

/-- Every table file is sound, and the log of an open process has a size that
can be mapped. -/
structure Engine.SoundFiles (cfg : Config) (e : Engine) : Prop where
  l0 : DirAll SoundFile e.l0Dir
  l1 : DirAll SoundFile e.l1Dir
  segment : e.isOpen = true → 0 < cfg.opts.walSegmentSizeBytes ∧
    cfg.opts.walSegmentSizeBytes ≤ cfg.platform.maxMap

theorem sound_flushStream {cfg : Config} {io : FlushIo cfg.cipher} {e : Engine} {o : OStream}
    (ho : e.flushStream cfg io = some o) (n : Nat) : SoundFile (effect (o.calls.take n)) :=
  sound_of_build (Prod.ext rfl ho) n

theorem sound_compactStream {cfg : Config} {io : CompactIo cfg.cipher} {e : Engine}
    {o : OStream} (ho : (e.compactStream cfg io).2 = some o) (n : Nat) :
    SoundFile (effect (o.calls.take n)) := by
  obtain ⟨records, res, -, hbuild⟩ := compact_builds (Prod.ext rfl ho)
  exact sound_of_build hbuild n

/-- All of a stream is one of its cuts. -/
theorem sound_file {o : OStream} (h : ∀ n, SoundFile (effect (o.calls.take n))) :
    SoundFile o.file := by
  have hall := h o.calls.length
  rwa [List.take_length] at hall

/-- What `Open` of a closed engine leaves alone, and what it takes to be open
behind it. -/
theorem open_rest (cfg : Config) (io : OpenIo) {e : Engine} (hclosed : e.isOpen = false) :
    (e.open cfg io).2.l0Dir = e.l0Dir ∧ (e.open cfg io).2.l1Dir = e.l1Dir ∧
      ((e.open cfg io).2.isOpen = true → (e.wal.open cfg.platform cfg.cipher
        cfg.opts.walSegmentSizeBytes io.wal).1.isOk = true) := by
  unfold Engine.open
  rw [if_neg (by simp [hclosed])]
  cases io.createL0 with
  | some err => exact ⟨rfl, rfl, fun h => by simp [hclosed] at h⟩
  | none =>
  cases io.createL1 with
  | some err => exact ⟨rfl, rfl, fun h => by simp [hclosed] at h⟩
  | none =>
  rcases e.wal.open cfg.platform cfg.cipher cfg.opts.walSegmentSizeBytes io.wal with ⟨res, w⟩
  cases res with
  | error err => exact ⟨rfl, rfl, fun h => by simp [hclosed] at h⟩
  | ok n =>
      dsimp only
      obtain ⟨-, -, hl0, hl1⟩ := loadSstablesFromDisk_rest io { e with wal := w }
      generalize Engine.loadSstablesFromDisk io { e with wal := w } = r at hl0 hl1 ⊢
      obtain ⟨res, e₁⟩ := r
      cases res with
      | error err => exact ⟨hl0, hl1, fun _ => rfl⟩
      | ok n =>
          simp only [Engine.replayWal]
          rcases e₁.wal.replay cfg.cipher cfg.opts.walSegmentSizeBytes Engine.replayRecord true
            e₁.memtable with ⟨res, m⟩
          cases res <;> exact ⟨hl0, hl1, fun _ => rfl⟩

namespace Engine.SoundFiles

variable {cfg : Config} {e : Engine}

theorem of_parts {e' : Engine} (h : e.SoundFiles cfg) (hopen : e'.isOpen = e.isOpen)
    (hl0 : DirAll SoundFile e'.l0Dir) (hl1 : DirAll SoundFile e'.l1Dir) : e'.SoundFiles cfg :=
  ⟨hl0, hl1, fun he => h.segment (hopen ▸ he)⟩

theorem buildAndInstall (h : e.SoundFiles cfg) (io : FlushIo cfg.cipher) :
    (e.buildAndInstall cfg io).2.SoundFiles cfg := by
  have hparts := buildAndInstall_parts cfg io e
  refine h.of_parts hparts.isOpen ?_ (by rw [hparts.l1Dir]; exact h.l1)
  rcases hparts.l0Dir with heq | heq
  · rw [heq]
    exact h.l0
  · rw [heq]
    exact h.l0.putFile fun o ho => sound_file (sound_flushStream ho)

theorem maybeCompact (h : e.SoundFiles cfg) (io : CompactIo cfg.cipher) :
    (e.maybeCompact cfg io).2.SoundFiles cfg := by
  have hparts := maybeCompact_parts cfg io e
  refine h.of_parts hparts.isOpen ?_ ?_
  · rcases hparts.l0Dir with heq | heq
    · rw [heq]
      exact h.l0
    · rw [heq]
      exact DirAll.removeFiles io.removeFails _ 0 h.l0
  · rcases hparts.l1Dir with heq | heq
    · rw [heq]
      exact h.l1
    · rw [heq]
      exact h.l1.putFile fun o ho => sound_file (sound_compactStream ho)

theorem flushMemTable (h : e.SoundFiles cfg) (io : FlushIo cfg.cipher) :
    (e.flushMemTable cfg io).2.SoundFiles cfg := by
  unfold Engine.flushMemTable
  split
  · exact h
  · have hbuild := h.buildAndInstall io
    generalize e.buildAndInstall cfg io = r at hbuild ⊢
    obtain ⟨res, e₁⟩ := r
    rcases res with err | _ | p
    · exact hbuild
    · exact hbuild
    · exact hbuild.maybeCompact io.compact

theorem applySet (h : e.SoundFiles cfg) (io : FlushIo cfg.cipher) (key value : Bytes)
    (seq : Nat) : (e.applySet cfg io key value seq).2.SoundFiles cfg := by
  unfold Engine.applySet
  rcases e.memtable.set key value seq with ⟨res, m⟩
  have hm : Engine.SoundFiles cfg { e with memtable := m } := h.of_parts rfl h.l0 h.l1
  cases res with
  | error err => exact hm
  | ok n =>
      dsimp only
      split
      · have hflush := hm.flushMemTable io
        generalize Engine.flushMemTable cfg io { e with memtable := m } = r at hflush ⊢
        obtain ⟨res, e₁⟩ := r
        cases res <;> exact hflush
      · exact hm

/-- **Every operation keeps the files sound**, whatever fails in it. -/
theorem step (h : e.SoundFiles cfg) (op : Op cfg.cipher) :
    (e.step cfg op).2.SoundFiles cfg := by
  cases op with
  | set io key value =>
      exact (e.set_writes cfg io key value).keeps (P := Engine.SoundFiles cfg) h
        (fun seq w _ => h.of_parts rfl h.l0 h.l1)
        fun seq w _ hw => hw.applySet io.flush key value seq
  | delete io key =>
      exact (e.delete_writes cfg io key).keeps (P := Engine.SoundFiles cfg) h
        (fun seq w _ => h.of_parts rfl h.l0 h.l1)
        fun seq w _ hw => hw.of_parts rfl hw.l0 hw.l1
  | flush io => exact h.flushMemTable io
  | compact io => exact h.maybeCompact io

theorem boot (h : e.SoundFiles cfg) : (e.boot cfg).SoundFiles cfg :=
  ⟨h.l0, h.l1, fun hopen => by cases hopen⟩

theorem start (h : e.SoundFiles cfg) (io : OpenIo) : (e.start cfg io).SoundFiles cfg := by
  have hboot := h.boot
  obtain ⟨hl0, hl1, hopen⟩ := @open_rest cfg io (e.boot cfg) rfl
  refine ⟨?_, ?_, fun he => ?_⟩
  · rw [Engine.start, hl0]
    exact hboot.l0
  · rw [Engine.start, hl1]
    exact hboot.l1
  · obtain ⟨-, hpos, hmax⟩ := open_eq_of_ok rfl (hopen he)
    exact ⟨hpos, hmax⟩

theorem close (h : e.SoundFiles cfg) (io : CloseIo) : (e.close io).2.SoundFiles cfg := by
  unfold Engine.close
  split
  · exact h
  · exact ⟨h.l0, h.l1, fun hopen => by cases hopen⟩

theorem crashCompact (h : e.SoundFiles cfg) (io : CompactIo cfg.cipher) (pt : CompactPoint) :
    (e.crashCompact cfg io pt).SoundFiles cfg := by
  unfold Engine.crashCompact
  split
  · exact h
  cases pt with
  | start => exact h
  | building n =>
      refine h.of_parts rfl h.l0 (h.l1.putFile fun o ho => ?_)
      obtain ⟨o', ho', rfl⟩ := Option.map_eq_some_iff.mp ho
      exact sound_compactStream ho' n
  | removing n =>
      have hl1 : DirAll SoundFile (Engine.putFile e.l1Dir (sstName io.nanos e.nextSstableId)
          (e.compactStream cfg io).2) :=
        h.l1.putFile fun o ho => sound_file (sound_compactStream ho)
      dsimp only
      split
      · exact h.of_parts rfl (DirAll.removeFiles io.removeFails _ 0 h.l0) hl1
      · exact h.of_parts rfl h.l0 hl1

theorem crashFlush (h : e.SoundFiles cfg) (io : FlushIo cfg.cipher) (pt : FlushPoint) :
    (e.crashFlush cfg io pt).SoundFiles cfg := by
  unfold Engine.crashFlush
  split
  · exact h
  cases pt with
  | start => exact h
  | building n =>
      dsimp only
      split
      · exact h
      · refine h.of_parts rfl (h.l0.putFile fun o ho => ?_) h.l1
        obtain ⟨o', ho', rfl⟩ := Option.map_eq_some_iff.mp ho
        exact sound_flushStream ho' n
  | compacting pt =>
      have hbuild := h.buildAndInstall io
      dsimp only
      generalize e.buildAndInstall cfg io = r at hbuild ⊢
      obtain ⟨res, e₁⟩ := r
      rcases res with err | _ | p
      · exact hbuild
      · exact hbuild
      · exact hbuild.crashCompact io.compact pt

/-- The state in which `Set` calls `FlushMemTable`. -/
theorem setFlushPoint (h : e.SoundFiles cfg) {io : WriteIo cfg.cipher} {key value : Bytes}
    {e' : Engine} (he' : e.setFlushPoint cfg io key value = some e') : e'.SoundFiles cfg := by
  unfold Engine.setFlushPoint at he'
  rcases hlog : e.logWrite cfg io .kSet key value with ⟨res, e₁⟩
  rw [hlog] at he'
  cases res with
  | error err => cases he'
  | ok seq =>
      obtain ⟨-, hkey, w, -, rfl⟩ := logWrite_ok hlog
      dsimp only at he'
      rw [MemTable.set_of_ne_nil hkey] at he'
      cases hr : Engine.replicate cfg io.calls with
      | error err => rw [hr] at he'; cases he'
      | ok n =>
          rw [hr] at he'
          dsimp only at he'
          split at he'
          · obtain rfl := Option.some.inj he'
            exact h.of_parts rfl h.l0 h.l1
          · cases he'

/-- **Every crash keeps the files sound.** -/
theorem crash (h : e.SoundFiles cfg) (cr : Crash cfg.cipher) :
    (e.crash cfg cr).SoundFiles cfg := by
  cases cr with
  | set io key value pt =>
      simp only [Engine.crash]
      cases hp : e.setFlushPoint cfg io key value with
      | some e' => exact (h.setFlushPoint hp).crashFlush io.flush pt
      | none => exact h.step (.set io key value)
  | flush io pt => exact h.crashFlush io pt
  | compact io pt => exact h.crashCompact io pt

end Engine.SoundFiles

/-- **The files of every state are sound.** -/
theorem Engine.Reached.soundFiles {cfg : Config} {e : Engine} (h : Engine.Reached cfg e) :
    e.SoundFiles cfg := by
  induction h with
  | fresh => exact ⟨DirAll.empty, DirAll.empty, fun hopen => by cases hopen⟩
  | start io _ ih => exact ih.start io
  | step op _ ih => exact ih.step op
  | close io _ ih => exact ih.close io
  | crash cr _ ih => exact (ih.crash cr).boot

/-! ## The next `Open` -/

theorem openTables_isOk_iff {dir : SortedMap Bytes Bytes} {ios : Nat → ReadIo}
    (hios : ∀ i, ios i = {}) (ps : List Bytes) :
    ∀ i, (Engine.openTables dir ios i ps).1.isOk = true ↔
      ∀ p ∈ ps, (SstableReader.open {} p (dir.find p)).isOk = true := by
  induction ps with
  | nil => intro i; exact iff_of_true rfl fun p hp => absurd hp List.not_mem_nil
  | cons p ps ih =>
      intro i
      rw [List.forall_mem_cons, Engine.openTables, hios i]
      cases hopen : SstableReader.open {} p (dir.find p) with
      | error err => exact iff_of_false (by simp) fun h => by cases h.1
      | ok rd => exact (ih (i + 1)).trans ⟨fun h => ⟨rfl, h⟩, fun h => h.2⟩

/-- **A level of sound files loads** exactly when every header is written. -/
theorem level_opens_iff {dir : SortedMap Bytes Bytes} (hdir : DirAll SoundFile dir)
    {ios : Nat → ReadIo} (hios : ∀ i, ios i = {}) :
    (Engine.openTables dir ios 0 (Engine.tablePaths dir false)).1.isOk = true ↔
      ∀ x ∈ dir.entries, hasSstExtension x.1 = true → HeaderWritten x.2 := by
  have hpaths : ∀ {p}, p ∈ Engine.tablePaths dir false ↔
      p ∈ dir.keys ∧ hasSstExtension p = true := by
    intro p
    rw [Engine.tablePaths, if_neg (by simp), List.mem_filter]
  rw [openTables_isOk_iff hios]
  constructor
  · intro h x hx hext
    have hfind := SortedMap.find_eq_some_iff.mpr hx
    have hopen := h x.1 (hpaths.mpr ⟨List.mem_map.mpr ⟨x, hx, rfl⟩, hext⟩)
    rw [hfind] at hopen
    cases hres : SstableReader.open {} x.1 (some x.2) with
    | error err => rw [hres] at hopen; cases hopen
    | ok rd => exact headerWritten_of_open hres
  · intro h p hp
    obtain ⟨hkey, hext⟩ := hpaths.mp hp
    obtain ⟨x, hx, rfl⟩ := List.mem_map.mp hkey
    have hfind := SortedMap.find_eq_some_iff.mpr hx
    rw [hfind]
    exact hdir x.1 x.2 hfind (h x hx hext) x.1

theorem replayRecord_isOk_iff (m : MemTable) (r : WalRecord) :
    (Engine.replayRecord m r).1.isOk = true ↔
      (r.op = .kSet ∨ r.op = .kDelete → r.key ≠ []) := by
  unfold Engine.replayRecord
  by_cases hkey : r.key = []
  · cases r.op <;> simp [MemTable.set, MemTable.delete, hkey]
  · cases r.op <;> simp [MemTable.set, MemTable.delete, hkey]

/-- **The replay runs through** exactly when no write has an empty key. -/
theorem runRecords_isOk_iff (rs : List WalRecord) :
    ∀ m, (runRecords Engine.replayRecord rs m).1.isOk = true ↔
      ∀ r ∈ rs, r.op = .kSet ∨ r.op = .kDelete → r.key ≠ [] := by
  induction rs with
  | nil => intro m; exact iff_of_true rfl fun r hr => absurd hr List.not_mem_nil
  | cons r rs ih =>
      intro m
      have hr := replayRecord_isOk_iff m r
      rw [List.forall_mem_cons, runRecords, ← hr]
      rcases Engine.replayRecord m r with ⟨res, m'⟩
      cases res with
      | error err => exact iff_of_false (by simp) fun h => by cases h.1
      | ok n => exact (ih m').trans ⟨fun h => ⟨rfl, h⟩, fun h => h.2⟩

/-- **A directory of sound files opens** exactly when every header is written
and the log replays. -/
theorem Engine.SoundFiles.open_iff {cfg : Config} {e : Engine} (h : e.SoundFiles cfg)
    (hb : e.Booted) {io : OpenIo} (hio : io.Clean) (hpos : 0 < cfg.opts.walSegmentSizeBytes)
    (hmax : cfg.opts.walSegmentSizeBytes ≤ cfg.platform.maxMap) :
    (∃ e', e.open cfg io = (.ok 0, e')) ↔ e.HeadersWritten ∧ e.LogReplays cfg := by
  have hwal : (e.wal.open cfg.platform cfg.cipher cfg.opts.walSegmentSizeBytes
      io.wal).1.isOk = true := by
    rw [hio.wal]
    exact wal_open_ok hb.wal hpos hmax
  have hreplay : ((e.wal.open cfg.platform cfg.cipher cfg.opts.walSegmentSizeBytes
      io.wal).2.replay cfg.cipher cfg.opts.walSegmentSizeBytes Engine.replayRecord true
        e.memtable).1.isOk = true ↔ e.LogReplays cfg := by
    rw [(open_log hb.wal hwal).1.replay Engine.replayRecord true e.memtable]
    exact runRecords_isOk_iff _ _
  have hl0 := level_opens_iff h.l0 hio.readsL0
  have hl1 := level_opens_iff h.l1 hio.readsL1
  have hboth : e.HeadersWritten ↔
      (∀ x ∈ e.l0Dir.entries, hasSstExtension x.1 = true → HeaderWritten x.2) ∧
        ∀ x ∈ e.l1Dir.entries, hasSstExtension x.1 = true → HeaderWritten x.2 :=
    List.forall_mem_append
  rw [hboth, ← hl0, ← hl1, ← hreplay]
  constructor
  · rintro ⟨e', he'⟩
    have hopened := (open_ok_iff hb.isOpen).mp he'
    have hload0 := hopened.l0
    have hload1 := hopened.l1
    rw [hio.listL0] at hload0
    rw [hio.listL1] at hload1
    exact ⟨⟨hload0, hload1⟩, hopened.replay⟩
  · rintro ⟨⟨hload0, hload1⟩, hrun⟩
    rw [← hio.listL0] at hload0
    rw [← hio.listL1] at hload1
    exact ⟨_, (open_ok_iff hb.isOpen).mpr
      ⟨hio.createL0, hio.createL1, hwal, hload0, hload1, hrun, rfl⟩⟩

/-- **The store opens after a crash exactly when every header on disk is
written and the log replays.** In any state of an open process, after any
operations, restarts and crashes with any failures, the process stops at any
point of a `FlushMemTable` or `MaybeCompact`: the next `Open`, if nothing
fails in it, returns `Ok` if and only if each `.sst` file left on disk has
the offset of its index in its header, and no write in the log has an empty
key. -/
theorem open_after_crash_iff {cfg : Config} {e : Engine} (hreached : Engine.Reached cfg e)
    (hopen : e.isOpen = true) (cr : Crash cfg.cipher) {io : OpenIo} (hio : io.Clean) :
    (∃ e', ((e.crash cfg cr).boot cfg).open cfg io = (.ok 0, e')) ↔
      (e.crash cfg cr).HeadersWritten ∧ (e.crash cfg cr).LogReplays cfg := by
  have hsound := hreached.soundFiles
  obtain ⟨hpos, hmax⟩ := hsound.segment hopen
  exact (hsound.crash cr).boot.open_iff (Engine.boot_booted cfg _) hio hpos hmax

/-- One key in the memtable of a new engine. -/
def oneKey : List (Op (smallConfig 4096).cipher) := [Small.set 4096 97 1]

/-- What the next `Open` says after the process stopped with `n` write calls
of the flush of that key issued. -/
def openAfterCut (n : Nat) : Res Nat × Engine :=
  ((((Small.opened 4096).run (smallConfig 4096) oneKey).crash (smallConfig 4096)
    (.flush (.quiet (0 : Nat)) (.building n))).boot (smallConfig 4096)).open
      (smallConfig 4096) {}

/-- **A crash makes the store unopenable.** With no write call issued the
file is empty and `Open` reports corruption; with all but the last one the
placeholder header makes it reserve a vector that is too long. -/
theorem openAfterCut_fails :
    ((Engine.fresh (smallConfig 4096)).open (smallConfig 4096) {}).1 = .ok 0 ∧
    (((Small.opened 4096).run (smallConfig 4096) oneKey).flushStream (smallConfig 4096)
      (.quiet (0 : Nat))).map (fun o => o.calls.length) = some 20 ∧
    (openAfterCut 0).1 = .error (Status.corruption "failed reading sstable header") ∧
    (openAfterCut 19).1 = .error (.exception .lengthError) := by
  decide +kernel

/-- With all write calls on disk the store opens. -/
theorem openAfterCut_whole : ∃ e', openAfterCut 20 = (.ok 0, e') := by
  have hreached : Engine.Reached (smallConfig 4096)
      ((Small.opened 4096).run (smallConfig 4096) oneKey) :=
    .step (Small.set 4096 97 1) (.start {} .fresh)
  exact (open_after_crash_iff hreached (by decide +kernel)
    (.flush (.quiet (0 : Nat)) (.building 20))
    ⟨rfl, rfl, rfl, rfl, rfl, fun _ => rfl, fun _ => rfl⟩).mpr (by decide +kernel)

end VaultKV
