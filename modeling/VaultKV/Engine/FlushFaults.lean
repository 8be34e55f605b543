import VaultKV.Engine.Scan
import VaultKV.Engine.Threads

/-!
# Engine — flushes that fail

`FlushMemTable` empties the memtable FIRST. When the table cannot be built
or opened, the drained entries are in no place a read looks at; when a
later compaction fails they are in the new table of level 0. What `Get` and
`ScanPrefix` answer afterwards follows from that: `failed_flush_iff` says
for every key and every scan when the answer is still the same.

Nothing here asks for a sound tree or for earlier I/O to have gone well: the
names of the new files must be unused, and that they are in every run of a
process is `Engine.Issued.run`.
-/

namespace VaultKV

open Lib

/-! ## What a failed flush leaves -/

/-- The flush got as far as the new table's installation. -/
def Engine.flushInstalls (cfg : Config) (io : FlushIo cfg.cipher) (e : Engine) : Bool :=
  (e.buildAndInstall cfg io).1.isOk

/-- The names of the next two tables are not in use. -/
structure Engine.Unused {c : Cipher} (io : FlushIo c) (e : Engine) : Prop where
  l0 : sstName io.nanos e.nextSstableId ∉ e.l0Tables.map SstableReader.path
  l1 : sstName io.compact.nanos (e.nextSstableId + 1) ∉ e.l1Tables.map SstableReader.path

/-- The numbers in the memtable have 64 bits. -/
def Engine.Numbered (e : Engine) : Prop :=
  ∀ x ∈ e.memtable.table.entries, x.2.seq < 2 ^ 64

/-- What the tables hand to a scan. -/
def Engine.tableCandidates (cfg : Config) (start : Bytes) (limit : Nat) (e : Engine) :
    List (Bytes × MemValue) :=
  Engine.scanTables cfg.cipher e.l0Dir start (limit * 2 % 2 ^ 64) e.l0Tables.reverse ++
    Engine.scanTables cfg.cipher e.l1Dir start (limit * 2 % 2 ^ 64) e.l1Tables.reverse

/-- **A failed flush.** The memtable is empty, and its entries are still
there for the tables' reads if they were installed. -/
structure Engine.Failed (cfg : Config) (installed : Bool) (e e' : Engine) : Prop where
  isOpen : e'.isOpen = e.isOpen
  mem : e'.memtable.table = SortedMap.empty
  search : ∀ k, e'.searchTables cfg k =
    match (if installed then e.memtable.table.find k else none) with
    | some v => Engine.answerOf v
    | none => e.searchTables cfg k
  candidates : ∀ start limit, e'.tableCandidates cfg start limit =
    (if installed then shown (startsWith start) (limit * 2 % 2 ^ 64) e.memtable.table
      else SortedMap.empty).entries ++ e.tableCandidates cfg start limit

theorem build_path {c : Cipher} {io : BuildIo c} {path : Bytes}
    {records : List SstableRecord} {m : SstableMeta} {out : OStream}
    (h : SstableBuilder.build c io path records = (.ok m, some out)) : m.path = path := by
  rcases build_calls h with ⟨-, e, he⟩ | ⟨xs, bloom, -, -, -, -, -, hm⟩
  · cases he
  · rw [hm m rfl]
    rfl

/-- A reader carries the path it was opened with. -/
theorem open_path {io : ReadIo} {path : Bytes} {file : Option Bytes} {rd : SstableReader}
    (h : SstableReader.open io path file = .ok rd) : rd.path = path := by
  unfold SstableReader.open at h
  dsimp only at h
  repeat' split at h
  all_goals cases h
  rfl

section

variable {cfg : Config} {e : Engine} {io : FlushIo cfg.cipher}

/-- What was built opens as the memtable's table. -/
theorem reads_of_build (hc : cfg.cipher.Lawful) (hseq : e.Numbered) {path : Bytes}
    {m : SstableMeta} {out : OStream} {rd : SstableReader}
    (hb : SstableBuilder.build cfg.cipher io.build path
      (e.memtable.table.entries.map SstableRecord.ofEntry) = (.ok m, some out))
    (hopen : SstableReader.open io.install path (some out.file) = .ok rd) :
    rd.path = path ∧ Reads cfg.cipher out.file rd e.memtable.table := by
  have htable := isTable_of_build (fun r hr => by
    obtain ⟨x, hx, rfl⟩ := List.mem_map.mp hr
    exact hseq x hx) hb
  rw [map_entry_ofEntry, merge_entries] at htable
  obtain ⟨rd', hopen', hpath, hreads⟩ := htable.opens hc path
  obtain rfl : rd = rd' := Except.ok.inj ((open_reliable hopen).symm.trans hopen')
  exact ⟨hpath, hreads⟩

/-- Nothing was installed. -/
theorem Engine.Failed.dropped (h : e.Unused io) (out : Option OStream) {m : MemTable}
    (hm : m.table = SortedMap.empty) (n : Nat) :
    Engine.Failed cfg false e
      { e with memtable := m, nextSstableId := n,
               l0Dir := Engine.putFile e.l0Dir (sstName io.nanos e.nextSstableId) out } := by
  have hbeside := find_beside e.l0Dir h.l0 out
  refine ⟨rfl, hm, fun k => ?_, fun start limit => ?_⟩
  · simp only [Engine.searchTables, getTables_congr k hbeside]
    rfl
  · simp only [Engine.tableCandidates, scanTables_congr start _ hbeside]
    rfl

/-- The table was installed, and the compaction behind it failed. -/
theorem Engine.Failed.installed (h : e.Unused io) {rd : SstableReader} {out : OStream}
    (hpath : rd.path = sstName io.nanos e.nextSstableId)
    (hreads : Reads cfg.cipher out.file rd e.memtable.table) (out' : Option OStream)
    {m : MemTable} (hm : m.table = SortedMap.empty) (n : Nat) :
    Engine.Failed cfg true e
      { e with memtable := m, nextSstableId := n,
               l0Dir := e.l0Dir.insert (sstName io.nanos e.nextSstableId) out.file,
               l0Tables := e.l0Tables ++ [rd],
               l1Dir := Engine.putFile e.l1Dir
                 (sstName io.compact.nanos (e.nextSstableId + 1)) out' } := by
  have hbeside := find_beside e.l0Dir h.l0 (some out)
  have hbeside' := find_beside e.l1Dir h.l1 out'
  have hfind : (e.l0Dir.insert (sstName io.nanos e.nextSstableId) out.file).find rd.path
      = some out.file := by
    rw [hpath, SortedMap.find_insert, if_pos rfl]
  refine ⟨rfl, hm, fun k => ?_, fun start limit => ?_⟩
  · have hrest : Engine.getTables cfg.cipher
        (e.l0Dir.insert (sstName io.nanos e.nextSstableId) out.file) k e.l0Tables.reverse
        = Engine.getTables cfg.cipher e.l0Dir k e.l0Tables.reverse := getTables_congr k hbeside
    simp only [Engine.searchTables, List.reverse_append, List.reverse_singleton,
      List.singleton_append, Engine.getTables, hfind, hrest, getTables_congr k hbeside']
    cases hv : e.memtable.table.find k with
    | some v =>
        rw [hreads.get_of_find hv]
        rfl
    | none =>
        obtain ⟨msg, hmiss⟩ := hreads.get_of_not_find hv
        rw [hmiss]
        rfl
  · have hshown : (rd.scanPrefix cfg.cipher (some out.file) start (limit * 2 % 2 ^ 64)).map
        SstableRecord.entry
        = (shown (startsWith start) (limit * 2 % 2 ^ 64) e.memtable.table).entries := by
      rw [hreads.scanPrefix, map_entry_ofEntry]
      rfl
    have hl0 : Engine.scanTables cfg.cipher
        (e.l0Dir.insert (sstName io.nanos e.nextSstableId) out.file) start
        (limit * 2 % 2 ^ 64) (e.l0Tables ++ [rd]).reverse
        = (shown (startsWith start) (limit * 2 % 2 ^ 64) e.memtable.table).entries ++
          Engine.scanTables cfg.cipher e.l0Dir start (limit * 2 % 2 ^ 64)
            e.l0Tables.reverse := by
      rw [List.reverse_append, List.reverse_singleton, List.singleton_append,
        ← scanTables_congr start _ hbeside, ← hshown, ← hfind]
      rfl
    simp only [Engine.tableCandidates, hl0, scanTables_congr start _ hbeside',
      List.append_assoc]
    rfl

/-- A compaction that fails leaves the readers alone. -/
theorem maybeCompact_error {ioc : CompactIo cfg.cipher} {err : Err}
    (h : (e.maybeCompact cfg ioc).1 = .error err) :
    ∃ out, (e.maybeCompact cfg ioc).2 =
      { e with nextSstableId := e.nextSstableId + 1
               l1Dir := Engine.putFile e.l1Dir (sstName ioc.nanos e.nextSstableId) out } := by
  revert h
  unfold Engine.maybeCompact
  by_cases hfew : e.l0Tables.length < 4
  · rw [if_pos hfew]
    intro h; cases h
  rw [if_neg hfew]
  dsimp only
  rcases compactLevel0ToLevel1 cfg.cipher ioc.merge e.l0Dir
    (e.l0Tables.map SstableReader.path) (sstName ioc.nanos e.nextSstableId) with ⟨res, out⟩
  cases res with
  | error err' => exact fun _ => ⟨out, rfl⟩
  | ok n =>
      dsimp only
      cases SstableReader.open ioc.install (sstName ioc.nanos e.nextSstableId)
        ((Engine.putFile e.l1Dir (sstName ioc.nanos e.nextSstableId) out).find
          (sstName ioc.nanos e.nextSstableId)) with
      | error err' => exact fun _ => ⟨out, rfl⟩
      | ok rd => intro h; cases h

/-- **Every failure of an open engine's flush.** -/
theorem flush_failed (hc : cfg.cipher.Lawful) (hseq : e.Numbered) (h : e.Unused io)
    (hopen : e.isOpen = true) {err : Err} (hfail : (e.flushMemTable cfg io).1 = .error err) :
    Engine.Failed cfg (e.flushInstalls cfg io) e (e.flushMemTable cfg io).2 := by
  have hdrained : (e.memtable.drainSorted true).1 = e.memtable.table.entries := by
    rw [MemTable.drainSorted, MemTable.snapshotSorted_true]
  have hempty : (e.memtable.drainSorted true).2.table = SortedMap.empty := rfl
  revert hfail
  rw [Engine.flushMemTable, if_neg (by simp [hopen]), Engine.flushInstalls,
    Engine.buildAndInstall]
  dsimp only
  by_cases hnil : (e.memtable.drainSorted true).1 = []
  · rw [if_pos hnil]
    intro hfail; cases hfail
  rw [if_neg hnil]
  rcases hb : SstableBuilder.build cfg.cipher io.build (sstName io.nanos e.nextSstableId)
    ((e.memtable.drainSorted true).1.map SstableRecord.ofEntry) with ⟨res, out⟩
  cases res with
  | error err' => exact fun _ => Engine.Failed.dropped h out hempty _
  | ok m =>
      obtain ⟨file, hb'⟩ := build_ok_stream (show (SstableBuilder.build cfg.cipher io.build
        (sstName io.nanos e.nextSstableId) _).1 = .ok m by rw [hb])
      obtain rfl : some file = out := (Prod.mk.inj (hb'.symm.trans hb)).2
      have hfind : (e.l0Dir.insert (sstName io.nanos e.nextSstableId) file.file).find
          (sstName io.nanos e.nextSstableId) = some file.file := by
        rw [SortedMap.find_insert, if_pos rfl]
      simp only [build_path hb, Engine.putFile, hfind]
      cases hrd : SstableReader.open io.install (sstName io.nanos e.nextSstableId)
        (some file.file) with
      | error err' => exact fun _ => Engine.Failed.dropped h (some file) hempty _
      | ok rd =>
          intro hfail
          obtain ⟨out', heq⟩ := maybeCompact_error hfail
          rw [hdrained] at hb
          obtain ⟨hpath, hreads⟩ := reads_of_build hc hseq hb hrd
          dsimp only
          rw [heq]
          exact Engine.Failed.installed h hpath hreads out' hempty _

end

/-! ## The answers -/

/-- `Get` of `k` does not depend on entries the flush has lost. -/
def Engine.KeepsGet (cfg : Config) (io : FlushIo cfg.cipher) (k : Bytes) (e : Engine) : Prop :=
  e.flushInstalls cfg io = true ∨
    ∀ v ∈ e.memtable.table.find k, e.searchTables cfg k = Engine.answerOf v

/-- A scan for `start` no longer gets this entry of the memtable: it is
lost, or it stands behind the `2 * n` entries that the new table hands out;
and fewer than `n` live keys are in front of it. -/
def Engine.Misses (cfg : Config) (io : FlushIo cfg.cipher) (start : Bytes) (n : Nat)
    (e : Engine) (k : Bytes) : Prop :=
  startsWith start k = true ∧
    (e.flushInstalls cfg io = true → 2 * n ≤ behind (startsWith start) e.memtable.table k) ∧
    rank (livePairs (merge (e.scanCandidates cfg start n))) k < n

/-- The scan shows the same without the entries it misses. -/
def Engine.KeepsScan (cfg : Config) (io : FlushIo cfg.cipher) (start : Bytes) (n : Nat)
    (e : Engine) : Prop :=
  ∀ k ∈ e.memtable.table.keys, e.Misses cfg io start n k →
    ((merge (e.scanCandidates cfg start n)).find k).bind Version.answer =
      ((merge (e.tableCandidates cfg start n)).find k).bind Version.answer

instance (cfg : Config) (io : FlushIo cfg.cipher) (k : Bytes) (e : Engine) :
    Decidable (e.KeepsGet cfg io k) :=
  inferInstanceAs (Decidable (_ ∨ ∀ v ∈ e.memtable.table.find k, _))

instance (cfg : Config) (io : FlushIo cfg.cipher) (start : Bytes) (n : Nat) (e : Engine)
    (k : Bytes) : Decidable (e.Misses cfg io start n k) :=
  inferInstanceAs (Decidable (_ ∧ (_ → _) ∧ _))

instance (cfg : Config) (io : FlushIo cfg.cipher) (start : Bytes) (n : Nat) (e : Engine) :
    Decidable (e.KeepsScan cfg io start n) :=
  inferInstanceAs (Decidable (∀ k ∈ e.memtable.table.keys, _ → _))

section

variable {cfg : Config} {e e' : Engine} {installed : Bool}

theorem Engine.Failed.get_iff (h : Engine.Failed cfg installed e e') (hopen : e.isOpen = true)
    {k : Bytes} (hk : k ≠ []) : e'.get cfg k = e.get cfg k ↔
      (installed = true ∨
        ∀ v ∈ e.memtable.table.find k, e.searchTables cfg k = Engine.answerOf v) := by
  have hafter : e'.get cfg k = e'.searchTables cfg k := by
    rw [get_eq_searchTables k e' (by simp [h.isOpen, hopen]) hk, MemTable.get, h.mem]
    rfl
  rw [hafter, h.search, get_eq_searchTables k e (by simp [hopen]) hk, MemTable.get]
  cases hv : e.memtable.table.find k with
  | none => exact iff_of_true (by cases installed <;> rfl) (Or.inr fun v hv => by cases hv)
  | some v =>
      cases installed with
      | true => exact iff_of_true rfl (Or.inl rfl)
      | false =>
          refine ⟨fun heq => Or.inr fun w hw => ?_, fun hor => ?_⟩
          · obtain rfl := Option.some.inj hw
            exact heq
          · exact hor.resolve_left Bool.false_ne_true v rfl

/-- A scan of the failed engine merges what is left of the memtable. -/
theorem Engine.Failed.scanCandidates (h : Engine.Failed cfg installed e e') (start : Bytes)
    (n : Nat) : e'.scanCandidates cfg start n =
      (if installed then shown (startsWith start) (n * 2 % 2 ^ 64) e.memtable.table
        else SortedMap.empty).entries ++ e.tableCandidates cfg start n := by
  rw [← h.candidates start n, Engine.scanCandidates, MemTable.snapshotSorted_true, h.mem]
  rfl

/-- A key the two scans see alike. -/
theorem Engine.Failed.find_eq (h : Engine.Failed cfg installed e e') {start : Bytes} {n : Nat}
    (hn : n * 2 % 2 ^ 64 = 2 * n) {k : Bytes}
    (hk : ¬ (k ∈ e.memtable.table.keys ∧ startsWith start k = true ∧
      (installed = true → 2 * n ≤ behind (startsWith start) e.memtable.table k))) :
    (merge (e.scanCandidates cfg start n)).find k
      = (merge (e'.scanCandidates cfg start n)).find k := by
  have hbefore : e.scanCandidates cfg start n =
      (e.memtable.table.filter fun k _ => startsWith start k).entries ++
        e.tableCandidates cfg start n := by
    rw [Engine.scanCandidates, MemTable.snapshotSorted_true]
    rfl
  rw [hbefore, h.scanCandidates, hn, find_merge, find_merge, versionsOf_append,
    versionsOf_append, versionsOf_entries, versionsOf_entries, SortedMap.find_filter]
  refine congrArg (fun o : Option MemValue => newest (o.toList ++ _)) ?_
  cases hv : e.memtable.table.find k with
  | none =>
      cases installed with
      | false => rfl
      | true =>
          rw [if_pos rfl, find_shown, hv, ite_self]
          rfl
  | some v =>
      have hkey : k ∈ e.memtable.table.keys :=
        SortedMap.find_isSome_iff.mp (by rw [hv]; rfl)
      by_cases hq : startsWith start k = true
      · cases installed with
        | false => exact absurd ⟨hkey, hq, fun hf => by cases hf⟩ hk
        | true =>
            have hlt : behind (startsWith start) e.memtable.table k < 2 * n :=
              Nat.lt_of_not_le fun hle => hk ⟨hkey, hq, fun _ => hle⟩
            rw [if_pos rfl, find_shown, hv, if_pos ⟨hq, hlt⟩, Option.filter_some, if_pos hq]
      · rw [Option.filter_some, if_neg hq]
        cases installed with
        | false => rfl
        | true => rw [if_pos rfl, find_shown, if_neg fun hand => hq hand.1]

/-- A key the failed engine's scan misses. -/
theorem Engine.Failed.find_missed (h : Engine.Failed cfg installed e e') {start : Bytes}
    {n : Nat} (hn : n * 2 % 2 ^ 64 = 2 * n) {k : Bytes}
    (hk : installed = true → 2 * n ≤ behind (startsWith start) e.memtable.table k) :
    (merge (e'.scanCandidates cfg start n)).find k
      = (merge (e.tableCandidates cfg start n)).find k := by
  rw [h.scanCandidates, hn, find_merge, find_merge, versionsOf_append, versionsOf_entries]
  cases installed with
  | false => rfl
  | true =>
      have hle := hk rfl
      rw [if_pos rfl, find_shown, if_neg fun hand => by omega]
      rfl

end

section

variable {cfg : Config} {e e' : Engine} {io : FlushIo cfg.cipher}

theorem Engine.Failed.scan_iff (h : Engine.Failed cfg (e.flushInstalls cfg io) e e')
    (hopen : e.isOpen = true) (start : Bytes) (limit : Nat) :
    e'.scanPrefix cfg start limit = e.scanPrefix cfg start limit ↔
      ((2 ^ 63 - 1) / 64 < (if limit = 0 then 100 else limit) ∨
        e.KeepsScan cfg io start (if limit = 0 then 100 else limit)) := by
  have hnot : ¬ e.isOpen = false := by simp [hopen]
  rw [Engine.scanPrefix, Engine.scanPrefix, h.isOpen, if_neg hnot, if_neg hnot]
  dsimp only
  generalize (if limit = 0 then 100 else limit) = n
  by_cases hbig : (2 ^ 63 - 1) / 64 < n
  · rw [if_pos hbig, if_pos hbig]
    exact iff_of_true rfl (Or.inl hbig)
  rw [if_neg hbig, if_neg hbig, or_iff_right hbig, Except.ok.injEq, eq_comm,
    take_livePairs_eq_iff]
  have hn : n * 2 % 2 ^ 64 = 2 * n := by omega
  constructor
  · intro hall k hk hmiss
    rw [hall k hmiss.2.2, h.find_missed hn hmiss.2.1]
  · intro hkeeps k hrank
    by_cases hmiss : k ∈ e.memtable.table.keys ∧ startsWith start k = true ∧
        (e.flushInstalls cfg io = true →
          2 * n ≤ behind (startsWith start) e.memtable.table k)
    · rw [h.find_missed hn hmiss.2.2]
      exact hkeeps k hmiss.1 ⟨hmiss.2.1, hmiss.2.2, hrank⟩
    · rw [h.find_eq hn hmiss]

end

/-! ## The states of a process -/

/-- The states of a process that started on the disk of `d`, whatever the
calls met outside the program. -/
inductive Engine.InProcess (cfg : Config) (d : Engine) : Engine → Prop
  | boot : InProcess cfg d (d.boot cfg)
  | open {e : Engine} (io : OpenIo) : InProcess cfg d e → InProcess cfg d (e.open cfg io).2
  | close {e : Engine} (io : CloseIo) : InProcess cfg d e → InProcess cfg d (e.close io).2
  | step {e : Engine} (op : Op cfg.cipher) :
      InProcess cfg d e → InProcess cfg d (e.step cfg op).2

/-- The file was there before the process, or has one of its own names. -/
def NameIssued (older : List Bytes) (n : Nat) (p : Bytes) : Prop :=
  p ∈ older ∨ ∃ nanos i, p = sstName nanos i ∧ i < n

/-- One level: the directory and its readers. -/
structure LevelIssued (older : List Bytes) (n : Nat) (dir : SortedMap Bytes Bytes)
    (rds : List SstableReader) : Prop where
  files : ∀ p ∈ dir.keys, NameIssued older n p
  readers : ∀ rd ∈ rds, NameIssued older n rd.path

/-- **Names and numbers of a process.** -/
structure Engine.Issued (older0 older1 : List Bytes) (e : Engine) : Prop where
  l0 : LevelIssued older0 e.nextSstableId e.l0Dir e.l0Tables
  l1 : LevelIssued older1 e.nextSstableId e.l1Dir e.l1Tables
  numbered : e.Numbered

theorem NameIssued.mono {older : List Bytes} {n n' : Nat} (hn : n ≤ n') {p : Bytes}
    (h : NameIssued older n p) : NameIssued older n' p := by
  rcases h with h | ⟨nanos, i, heq, hi⟩
  · exact Or.inl h
  · exact Or.inr ⟨nanos, i, heq, Nat.lt_of_lt_of_le hi hn⟩

theorem issued_next (older : List Bytes) (nanos n : Nat) :
    NameIssued older (n + 1) (sstName nanos n) := Or.inr ⟨nanos, n, rfl, Nat.lt_succ_self n⟩

namespace LevelIssued

variable {older : List Bytes} {n : Nat} {dir : SortedMap Bytes Bytes}
  {rds : List SstableReader}

theorem mono {n' : Nat} (h : LevelIssued older n dir rds) (hn : n ≤ n') :
    LevelIssued older n' dir rds :=
  ⟨fun p hp => (h.files p hp).mono hn, fun rd hrd => (h.readers rd hrd).mono hn⟩

theorem putFile (h : LevelIssued older n dir rds) (nanos : Nat) (out : Option OStream) :
    LevelIssued older (n + 1) (Engine.putFile dir (sstName nanos n) out) rds := by
  have hmono := h.mono (Nat.le_succ n)
  refine ⟨fun p hp => ?_, hmono.readers⟩
  cases out with
  | none => exact hmono.files p hp
  | some o =>
      rcases SortedMap.mem_keys_insert.mp hp with rfl | hp
      · exact issued_next older nanos n
      · exact hmono.files p hp

theorem install (h : LevelIssued older n dir rds) {rd : SstableReader}
    (hrd : NameIssued older n rd.path) : LevelIssued older n dir (rds ++ [rd]) := by
  refine ⟨h.files, fun rd' hrd' => ?_⟩
  rcases List.mem_append.mp hrd' with hrd' | hrd'
  · exact h.readers rd' hrd'
  · rw [List.mem_singleton.mp hrd']
    exact hrd

/-- The readers that `Open` makes stand on files of the directory. -/
theorem reload (h : LevelIssued older n dir rds) (ios : Nat → ReadIo) (listFails : Bool) :
    LevelIssued older n dir
      (Engine.openTables dir ios 0 (Engine.tablePaths dir listFails)).2 := by
  refine ⟨h.files, fun rd hrd => ?_⟩
  have hpaths : ∀ (ps : List Bytes) (i : Nat),
      ∀ rd ∈ (Engine.openTables dir ios i ps).2, rd.path ∈ ps := by
    intro ps
    induction ps with
    | nil => intro i rd hrd; cases hrd
    | cons p ps ih =>
        intro i rd hrd
        rw [Engine.openTables] at hrd
        cases hopen : SstableReader.open (ios i) p (dir.find p) with
        | error err => rw [hopen] at hrd; cases hrd
        | ok rd' =>
            rw [hopen] at hrd
            rcases List.mem_cons.mp hrd with rfl | hrd
            · rw [open_path hopen]
              exact List.mem_cons_self
            · exact List.mem_cons_of_mem _ (ih (i + 1) rd hrd)
  refine h.files _ ?_
  have hmem := hpaths _ 0 rd hrd
  rw [Engine.tablePaths] at hmem
  by_cases hl : listFails = true
  · rw [if_pos hl] at hmem; cases hmem
  · rw [if_neg hl] at hmem
    exact (List.mem_filter.mp hmem).1

end LevelIssued

namespace Engine.Issued

variable {cfg : Config} {older0 older1 : List Bytes} {e : Engine}

/-- Calls that leave tables and memtable alone. -/
theorem withWal (h : e.Issued older0 older1) (w : Wal) (b : Bool) :
    Engine.Issued older0 older1 { e with wal := w, isOpen := b } := ⟨h.l0, h.l1, h.numbered⟩

theorem put (h : e.Issued older0 older1) {seq : Nat} (hseq : seq < 2 ^ 64) (key value : Bytes)
    (tombstone : Bool) : Engine.Issued older0 older1
      { e with memtable := e.memtable.put key ⟨value, seq, tombstone⟩ } := by
  refine ⟨h.l0, h.l1, fun x hx => ?_⟩
  rcases SortedMap.mem_insertEntry hx with rfl | hx
  · exact hseq
  · exact h.numbered x hx

theorem maybeCompact (h : e.Issued older0 older1) (io : CompactIo cfg.cipher) :
    (e.maybeCompact cfg io).2.Issued older0 older1 := by
  unfold Engine.maybeCompact
  by_cases hfew : e.l0Tables.length < 4
  · rw [if_pos hfew]
    exact h
  rw [if_neg hfew]
  dsimp only
  rcases compactLevel0ToLevel1 cfg.cipher io.merge e.l0Dir
    (e.l0Tables.map SstableReader.path) (sstName io.nanos e.nextSstableId) with ⟨res, out⟩
  have hl1 := h.l1.putFile io.nanos out
  have hl0 := h.l0.mono (Nat.le_succ _)
  cases res with
  | error err => exact ⟨hl0, hl1, h.numbered⟩
  | ok n =>
      dsimp only
      cases hrd : SstableReader.open io.install (sstName io.nanos e.nextSstableId)
        ((Engine.putFile e.l1Dir (sstName io.nanos e.nextSstableId) out).find
          (sstName io.nanos e.nextSstableId)) with
      | error err => exact ⟨hl0, hl1, h.numbered⟩
      | ok rd =>
          refine ⟨⟨fun p hp => hl0.files p (mem_keys_removeFiles _ _ 0 _ p hp),
            fun rd' hrd' => absurd hrd' List.not_mem_nil⟩, hl1.install ?_, h.numbered⟩
          rw [open_path hrd]
          exact issued_next _ _ _

theorem flushMemTable (h : e.Issued older0 older1) (io : FlushIo cfg.cipher) :
    (e.flushMemTable cfg io).2.Issued older0 older1 := by
  have hnone : ∀ x ∈ (e.memtable.drainSorted true).2.table.entries, x.2.seq < 2 ^ 64 :=
    fun x hx => absurd hx List.not_mem_nil
  unfold Engine.flushMemTable Engine.buildAndInstall
  by_cases hopen : e.isOpen = false
  · rw [if_pos hopen]
    exact h
  rw [if_neg hopen]
  dsimp only
  by_cases hnil : (e.memtable.drainSorted true).1 = []
  · rw [if_pos hnil]
    exact ⟨h.l0, h.l1, hnone⟩
  rw [if_neg hnil]
  rcases hb : SstableBuilder.build cfg.cipher io.build (sstName io.nanos e.nextSstableId)
    ((e.memtable.drainSorted true).1.map SstableRecord.ofEntry) with ⟨res, out⟩
  have hl0 := h.l0.putFile io.nanos out
  have hl1 := h.l1.mono (Nat.le_succ e.nextSstableId)
  cases res with
  | error err => exact ⟨hl0, hl1, hnone⟩
  | ok m =>
      dsimp only
      cases hrd : SstableReader.open io.install m.path
        ((Engine.putFile e.l0Dir (sstName io.nanos e.nextSstableId) out).find m.path) with
      | error err => exact ⟨hl0, hl1, hnone⟩
      | ok rd =>
          obtain ⟨file, hb'⟩ := build_ok_stream (show (SstableBuilder.build cfg.cipher
            io.build (sstName io.nanos e.nextSstableId) _).1 = .ok m by rw [hb])
          have hname : NameIssued older0 (e.nextSstableId + 1) rd.path := by
            rw [open_path hrd, build_path hb']
            exact issued_next _ _ _
          have hinstalled : Engine.Issued older0 older1
              { e with memtable := (e.memtable.drainSorted true).2
                       nextSstableId := e.nextSstableId + 1
                       l0Dir := Engine.putFile e.l0Dir (sstName io.nanos e.nextSstableId) out
                       l0Tables := e.l0Tables ++ [rd] } :=
            ⟨hl0.install hname, hl1, hnone⟩
          exact hinstalled.maybeCompact io.compact

theorem set (h : e.Issued older0 older1) (io : WriteIo cfg.cipher) (key value : Bytes) :
    (e.set cfg io key value).2.Issued older0 older1 := by
  apply (Engine.set_writes cfg io key value e).keeps (P := Engine.Issued older0 older1) h
  · intro seq w _
    exact h.withWal w e.isOpen
  · intro seq w hrec hw
    have hput := hw.put (Wal.append_seq hrec.append) key value false
    simp only [Engine.applySet, MemTable.set_of_ne_nil hrec.key_ne]
    split
    · have hflush := hput.flushMemTable io.flush
      split
      · rename_i heq; rw [heq] at hflush; exact hflush
      · rename_i heq; rw [heq] at hflush; exact hflush
    · exact hput

theorem delete (h : e.Issued older0 older1) (io : WriteIo cfg.cipher) (key : Bytes) :
    (e.delete cfg io key).2.Issued older0 older1 := by
  apply (Engine.delete_writes cfg io key e).keeps (P := Engine.Issued older0 older1) h
  · intro seq w _
    exact h.withWal w e.isOpen
  · intro seq w hrec hw
    simp only [Engine.applyDelete, MemTable.delete_of_ne_nil hrec.key_ne]
    exact hw.put (Wal.append_seq hrec.append) key [] true

theorem replayWal (h : e.Issued older0 older1) : (e.replayWal cfg).2.Issued older0 older1 := by
  refine ⟨h.l0, h.l1, ?_⟩
  refine Wal.replay_invariant (P := fun m : MemTable =>
    ∀ x ∈ m.table.entries, x.2.seq < 2 ^ 64) ?_ h.numbered
  intro m rec hseq hm
  have hput : ∀ value tombstone,
      ∀ x ∈ (m.put rec.key ⟨value, rec.seq, tombstone⟩).table.entries, x.2.seq < 2 ^ 64 := by
    intro value tombstone x hx
    rcases SortedMap.mem_insertEntry hx with rfl | hx
    · exact hseq
    · exact hm x hx
  unfold Engine.replayRecord MemTable.set MemTable.delete
  repeat' split
  all_goals first | exact hm | exact hput _ _

theorem reopen (h : e.Issued older0 older1) (io : OpenIo) :
    (e.open cfg io).2.Issued older0 older1 := by
  unfold Engine.open
  by_cases hopen : e.isOpen = true
  · rw [if_pos hopen]
    exact h
  rw [if_neg hopen]
  cases io.createL0 with
  | some err => exact h
  | none =>
  cases io.createL1 with
  | some err => exact h
  | none =>
  dsimp only
  rcases e.wal.open cfg.platform cfg.cipher cfg.opts.walSegmentSizeBytes io.wal with
    ⟨resW, w⟩
  have hw : Engine.Issued older0 older1 { e with wal := w } := ⟨h.l0, h.l1, h.numbered⟩
  cases resW with
  | error err => exact hw
  | ok nW =>
  have hl0 := h.l0.reload io.readsL0 io.listL0Fails
  have hl1 := h.l1.reload io.readsL1 io.listL1Fails
  dsimp only [Engine.loadSstablesFromDisk]
  rcases h0 : Engine.openTables e.l0Dir io.readsL0 0
    (Engine.tablePaths e.l0Dir io.listL0Fails) with ⟨res0, l0⟩
  rw [h0] at hl0
  cases res0 with
  | error err => exact ⟨hl0, ⟨h.l1.files, fun _ hrd => absurd hrd List.not_mem_nil⟩, h.numbered⟩
  | ok n0 =>
  dsimp only
  rcases h1 : Engine.openTables e.l1Dir io.readsL1 0
    (Engine.tablePaths e.l1Dir io.listL1Fails) with ⟨res1, l1⟩
  rw [h1] at hl1
  have hloaded : Engine.Issued older0 older1
      { e with wal := w, l0Tables := l0, l1Tables := l1 } := ⟨hl0, hl1, h.numbered⟩
  cases res1 with
  | error err => exact hloaded
  | ok n1 =>
  have hreplayed : (Engine.replayWal cfg
      { e with wal := w, l0Tables := l0, l1Tables := l1 }).2.Issued older0 older1 :=
    hloaded.replayWal
  dsimp only
  rcases hr : Engine.replayWal cfg { e with wal := w, l0Tables := l0, l1Tables := l1 } with
    ⟨resR, e₁⟩
  rw [hr] at hreplayed
  cases resR with
  | error err => exact hreplayed
  | ok nR => exact ⟨hreplayed.l0, hreplayed.l1, hreplayed.numbered⟩

theorem close (h : e.Issued older0 older1) (io : CloseIo) :
    (e.close io).2.Issued older0 older1 := by
  unfold Engine.close
  by_cases hopen : e.isOpen = false
  · rw [if_pos hopen]
    exact h
  · rw [if_neg hopen]
    exact h.withWal _ _

end Engine.Issued

/-- **Every state of a process** has its own names. -/
theorem Engine.InProcess.issued {cfg : Config} {d e : Engine} (h : Engine.InProcess cfg d e) :
    e.Issued d.l0Dir.keys d.l1Dir.keys := by
  induction h with
  | boot =>
      exact ⟨⟨fun p hp => Or.inl hp, fun _ hrd => absurd hrd List.not_mem_nil⟩,
        ⟨fun p hp => Or.inl hp, fun _ hrd => absurd hrd List.not_mem_nil⟩,
        fun _ hx => absurd hx List.not_mem_nil⟩
  | «open» io _ ih => exact ih.reopen io
  | close io _ ih => exact ih.close io
  | step op _ ih =>
      cases op with
      | set io key value => exact ih.set io key value
      | delete io key => exact ih.delete io key
      | flush io => exact ih.flushMemTable io
      | compact io => exact ih.maybeCompact io

theorem Engine.InProcess.run {cfg : Config} {d : Engine} (ops : List (Op cfg.cipher)) :
    ∀ {e : Engine}, Engine.InProcess cfg d e → Engine.InProcess cfg d (e.run cfg ops) := by
  induction ops with
  | nil => intro e h; exact h
  | cons op ops ih => intro e h; exact ih (h.step op)

/-- A level's next name is unused. -/
theorem LevelIssued.unused {older : List Bytes} {n i nanos : Nat}
    {dir : SortedMap Bytes Bytes} {rds : List SstableReader} (h : LevelIssued older n dir rds)
    (hi : n ≤ i) (hclock : ∀ j, sstName nanos j ∉ older) :
    sstName nanos i ∉ rds.map SstableReader.path := by
  intro hmem
  obtain ⟨rd, hrd, heq⟩ := List.mem_map.mp hmem
  rcases h.readers rd hrd with hold | ⟨nanos', j, hname, hj⟩
  · exact hclock i (heq ▸ hold)
  · exact sstName_ne (by omega) (heq.symm.trans hname)

/-- **What a failed flush changes, exactly.** In any state of a process,
started on any disk and with any failures before, let `FlushMemTable` fail
at any point; its clock readings are in no file name that was there before
the process. Then `Get` of a key answers the same as before the call if and
only if the new table was installed or the tables answer for the key as the
memtable did; and a scan answers the same if and only if it shows the same
without the memtable's entries that it misses. -/
theorem failed_flush_iff {cfg : Config} (hc : cfg.cipher.Lawful) {d e : Engine}
    (he : Engine.InProcess cfg d e) {io : FlushIo cfg.cipher}
    (hclock0 : ∀ j, sstName io.nanos j ∉ d.l0Dir.keys)
    (hclock1 : ∀ j, sstName io.compact.nanos j ∉ d.l1Dir.keys) {err : Err}
    (hfail : (e.flushMemTable cfg io).1 = .error err) :
    (∀ k, (e.flushMemTable cfg io).2.get cfg k = e.get cfg k ↔
      (e.isOpen = false ∨ k = [] ∨ e.KeepsGet cfg io k)) ∧
    (∀ start limit,
      (e.flushMemTable cfg io).2.scanPrefix cfg start limit = e.scanPrefix cfg start limit ↔
        (e.isOpen = false ∨ (2 ^ 63 - 1) / 64 < (if limit = 0 then 100 else limit) ∨
          e.KeepsScan cfg io start (if limit = 0 then 100 else limit))) := by
  have hissued := he.issued
  have hname : e.Unused io := ⟨hissued.l0.unused (Nat.le_refl _) hclock0,
    hissued.l1.unused (Nat.le_succ _) hclock1⟩
  by_cases hopen : e.isOpen = false
  · have hsame : (e.flushMemTable cfg io).2 = e := by
      rw [Engine.flushMemTable, if_pos hopen]
    rw [hsame]
    exact ⟨fun k => iff_of_true rfl (Or.inl hopen),
      fun start limit => iff_of_true rfl (Or.inl hopen)⟩
  have hyes : e.isOpen = true := Bool.eq_true_of_not_eq_false hopen
  have hfailed := flush_failed hc hissued.numbered hname hyes hfail
  refine ⟨fun k => ?_, fun start limit => ?_⟩
  · rw [or_iff_right hopen]
    by_cases hk : k = []
    · refine iff_of_true ?_ (Or.inl hk)
      rw [Engine.get, Engine.get, hfailed.isOpen, if_neg hopen, if_pos hk, if_neg hopen,
        if_pos hk]
    · rw [or_iff_right hk]
      exact hfailed.get_iff hyes hk
  · rw [or_iff_right hopen]
    exact hfailed.scan_iff hyes start limit

theorem Small.inProcess (budget : Nat) (ops : List (Op (smallConfig budget).cipher)) :
    Engine.InProcess (smallConfig budget) (Engine.fresh (smallConfig budget))
      ((Small.opened budget).run (smallConfig budget) ops) :=
  (Engine.InProcess.boot.open {}).run ops

/-- The directory of the new table cannot be made. -/
def noDirectory : FlushIo (smallConfig 4096).cipher :=
  { FlushIo.quiet (0 : Nat) with
    build := { rand := fun _ => (0 : Nat), createDirectories := some "No space left on device" } }

/-- A value that is in a table, and once more in the memtable. -/
def setTwice : List (Op (smallConfig 4096).cipher) :=
  [Small.set 4096 97 1, .flush (.quiet (0 : Nat)), Small.set 4096 97 1]

theorem setTwice_kept :
    (((Small.opened 4096).run (smallConfig 4096) setTwice).flushMemTable (smallConfig 4096)
      noDirectory).1.isOk = false ∧
    (((Small.opened 4096).run (smallConfig 4096) setTwice).flushMemTable (smallConfig 4096)
      noDirectory).2.get (smallConfig 4096) [97]
        = ((Small.opened 4096).run (smallConfig 4096) setTwice).get (smallConfig 4096) [97] := by
  refine ⟨by decide +kernel, ?_⟩
  have hfail : (((Small.opened 4096).run (smallConfig 4096) setTwice).flushMemTable
      (smallConfig 4096) noDirectory).1 = .error (Status.ioError
        "failed creating sstable dir: No space left on device") := by decide +kernel
  refine ((failed_flush_iff (fallback_lawful zeroKey) (Small.inProcess 4096 setTwice)
    (fun _ => List.not_mem_nil) (fun _ => List.not_mem_nil) hfail).1 [97]).mpr
    (Or.inr (Or.inr ?_))
  decide +kernel

/-- The merged table of level 1 does not open. -/
def noLevelOne : FlushIo (smallConfig 4096).cipher :=
  { FlushIo.quiet (0 : Nat) with
    compact := { CompactIo.quiet (0 : Nat) with install := { openFails := true } } }

/-- Three tables, and two tombstones in front of a key in the memtable. -/
def threeTables : List (Op (smallConfig 4096).cipher) :=
  [Small.set 4096 100 1, .flush (.quiet (0 : Nat)), Small.set 4096 100 2,
   .flush (.quiet (0 : Nat)), Small.set 4096 100 3, .flush (.quiet (0 : Nat)),
   Small.delete 4096 97, Small.delete 4096 98, Small.set 4096 99 1]

/-- **A failed flush loses the memtable.** When the table cannot be built,
its key is gone from the process. When the compaction behind the flush
fails, the key is still there for `Get`, but a scan with limit 1 now shows
another one. -/
theorem failed_flush_loses :
    ((((Small.opened 4096).run (smallConfig 4096) [Small.set 4096 97 1]).flushMemTable
        (smallConfig 4096) noDirectory).1.isOk = false ∧
      ((Small.opened 4096).run (smallConfig 4096) [Small.set 4096 97 1]).get
        (smallConfig 4096) [97] = .ok [1] ∧
      (((Small.opened 4096).run (smallConfig 4096) [Small.set 4096 97 1]).flushMemTable
        (smallConfig 4096) noDirectory).2.get (smallConfig 4096) [97]
          = .error (Status.notFound "key not found")) ∧
    ((((Small.opened 4096).run (smallConfig 4096) threeTables).flushMemTable
        (smallConfig 4096) noLevelOne).1.isOk = false ∧
      ((Small.opened 4096).run (smallConfig 4096) threeTables).scanPrefix
        (smallConfig 4096) [] 1 = .ok [([99], [1])] ∧
      (((Small.opened 4096).run (smallConfig 4096) threeTables).flushMemTable
        (smallConfig 4096) noLevelOne).2.scanPrefix (smallConfig 4096) [] 1
          = .ok [([100], [3])]) := by
  decide +kernel

end VaultKV
