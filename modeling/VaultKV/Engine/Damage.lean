import VaultKV.Engine.Store

/-!
# Engine — reads over damaged records

`Get` walks over every table that does not answer with `Ok`, whatever the
reason: a key the table does not have, and a record that is there but can no
longer be read. So a damaged record gives way to the next OLDER version of
its key, and to `NotFound` after the last one. `stale_read_iff` says for
every state and every damage when the answer is still right.
-/

namespace VaultKV

open Lib

/-! ## Damage -/

/-- Record bodies of the table files are damaged; all else is as it was. -/
structure Engine.DamagedTo (cfg : Config) (e e' : Engine) : Prop where
  rest : e' = { e with l0Dir := e'.l0Dir, l1Dir := e'.l1Dir }
  l0 : ∀ rd ∈ e.l0Tables,
    OnlyHarmed cfg.cipher (e.l0Dir.find rd.path) (e'.l0Dir.find rd.path) rd.index
  l1 : ∀ rd ∈ e.l1Tables,
    OnlyHarmed cfg.cipher (e.l1Dir.find rd.path) (e'.l1Dir.find rd.path) rd.index

/-- `Get` found an answer: a value, or that there is none. -/
def Answered (r : Res Bytes) : Prop :=
  match r with
  | .ok _ => True
  | .error err => err.code? = some .kNotFound

instance (r : Res Bytes) : Decidable (Answered r) :=
  match r with
  | .ok _ => inferInstanceAs (Decidable True)
  | .error err => inferInstanceAs (Decidable (err.code? = some .kNotFound))

namespace Engine

variable (cfg : Config)

/-- What a `Get` ought to answer: the version with the largest number. -/
def newestAnswer (key : Bytes) (e : Engine) : Res Bytes :=
  match newest (e.versionsMet cfg key) with
  | some v => answerOf v
  | none => .error (Status.notFound "key not found")

/-- The newest version of the key is still among those that can be read. -/
def NewestReadable (key : Bytes) (e e' : Engine) : Prop :=
  ∀ v ∈ newest (e.versionsMet cfg key), v ∈ e'.versionsMet cfg key

instance (key : Bytes) (e e' : Engine) : Decidable (NewestReadable cfg key e e') :=
  inferInstanceAs (Decidable (∀ v ∈ newest (e.versionsMet cfg key), _))

/-- **No stale read**: an answer is that of the newest version, which could
be read; a newest version that cannot be read gives an error other than
`NotFound`. -/
structure NoStaleRead (key : Bytes) (e e' : Engine) : Prop where
  answer : Answered (e'.get cfg key) →
    NewestReadable cfg key e e' ∧ e'.get cfg key = e.newestAnswer cfg key
  refusal : ¬ NewestReadable cfg key e e' → ¬ Answered (e'.get cfg key)

end Engine

theorem answered_answerOf (v : MemValue) : Answered (Engine.answerOf v) := by
  unfold Engine.answerOf
  cases v.tombstone with
  | true => exact rfl
  | false => trivial

/-! ## What a lookup finds in a damaged file -/

/-- The outcome of a lookup: the record as it was, or a status. -/
theorem Reads.get_harmed {c : Cipher} {file : Bytes} {file' : Option Bytes}
    {rd : SstableReader} {t : Table Bytes Bytes} (h : Reads c file rd t)
    (hharmed : OnlyHarmed c (some file) file' rd.index) (k : Bytes) :
    (∃ s, rd.get c file' k = .error (.status s)) ∨
      ∃ v, t.find k = some v ∧ rd.get c file' k = .ok (SstableRecord.ofEntry (k, v)) := by
  cases hv : t.find k with
  | none =>
      obtain ⟨msg, hmiss⟩ := h.get_miss hv
      exact Or.inl ⟨_, hmiss file'⟩
  | some v =>
      obtain ⟨i, hi, -, hwas, hget⟩ := h.get_eq_read hv
      rw [hget file']
      cases hr : readRecordAt c {} file' i.offset with
      | error err =>
          obtain ⟨s, rfl⟩ := readRecordAt_error hr
          exact Or.inl ⟨s, rfl⟩
      | ok r =>
          have hsame := hwas.symm.trans (hharmed i hi r hr)
          exact Or.inr ⟨v, rfl, by rw [Except.ok.inj hsame]⟩

section

variable {c : Cipher} {dir dir' : SortedMap Bytes Bytes} {rds : List SstableReader}
  {ts : List (Table Bytes Bytes)}

/-- The versions that can still be read, in their order. -/
theorem tableVersions_sublist (h : List.Forall₂ (TableAt c dir) rds ts)
    (hharmed : ∀ rd ∈ rds, OnlyHarmed c (dir.find rd.path) (dir'.find rd.path) rd.index)
    (k : Bytes) : (Engine.tableVersions c dir' k rds).Sublist (hits ts k) := by
  induction h with
  | nil => exact List.Sublist.slnil
  | @cons rd t rds ts hhead _ ih =>
      obtain ⟨file, hfile, -, hreads⟩ := hhead
      have hrd := hharmed rd List.mem_cons_self
      rw [hfile] at hrd
      have hrest := ih fun rd' hrd' => hharmed rd' (List.mem_cons_of_mem _ hrd')
      unfold Engine.tableVersions at hrest ⊢
      rw [hits_cons, List.filterMap_cons]
      rcases hreads.get_harmed hrd k with ⟨s, hget⟩ | ⟨v, hv, hget⟩
      · rw [hget]
        exact hrest.trans (List.sublist_append_right _ _)
      · rw [hget, hv]
        exact hrest.cons_cons _

/-- `Get` decides on the first version that can be read. -/
theorem getTables_harmed (h : List.Forall₂ (TableAt c dir) rds ts)
    (hharmed : ∀ rd ∈ rds, OnlyHarmed c (dir.find rd.path) (dir'.find rd.path) rd.index)
    (k : Bytes) : Engine.getTables c dir' k rds
      = (Engine.tableVersions c dir' k rds).head?.map Engine.answerOf := by
  induction h with
  | nil => rfl
  | @cons rd t rds ts hhead _ ih =>
      obtain ⟨file, hfile, -, hreads⟩ := hhead
      have hrd := hharmed rd List.mem_cons_self
      rw [hfile] at hrd
      have hrest := ih fun rd' hrd' => hharmed rd' (List.mem_cons_of_mem _ hrd')
      rw [Engine.getTables, Engine.tableVersions, List.filterMap_cons]
      rcases hreads.get_harmed hrd k with ⟨s, hget⟩ | ⟨v, -, hget⟩
      · rw [hget]
        exact hrest
      · rw [hget]
        rfl

end

/-! ## The engine -/

section

variable {cfg : Config} {e e' : Engine} {s : Lsm Bytes Bytes}

theorem Engine.Rep.versionsMet_harmed (h : e.Rep cfg s) (hd : e.DamagedTo cfg e') (k : Bytes) :
    (e'.versionsMet cfg k).Sublist (e.versionsMet cfg k) := by
  have hl0 := tableVersions_sublist h.reverse_l0
    (fun rd hrd => hd.l0 rd (List.mem_reverse.mp hrd)) k
  have hl1 := tableVersions_sublist h.reverse_l1
    (fun rd hrd => hd.l1 rd (List.mem_reverse.mp hrd)) k
  rw [← tableVersions_eq h.reverse_l0] at hl0
  rw [← tableVersions_eq h.reverse_l1] at hl1
  rw [Engine.versionsMet, Engine.versionsMet, hd.rest]
  exact (List.Sublist.refl _).append (hl0.append hl1)

theorem Engine.Rep.get_harmed (h : e.Rep cfg s) (hd : e.DamagedTo cfg e')
    (hopen : e.isOpen = true) {k : Bytes} (hk : k ≠ []) :
    e'.get cfg k = match (e'.versionsMet cfg k).head? with
      | some v => Engine.answerOf v
      | none => .error (Status.notFound "key not found") := by
  have hl0 := getTables_harmed h.reverse_l0
    (fun rd hrd => hd.l0 rd (List.mem_reverse.mp hrd)) k
  have hl1 := getTables_harmed h.reverse_l1
    (fun rd hrd => hd.l1 rd (List.mem_reverse.mp hrd)) k
  rw [hd.rest]
  rw [Engine.get, if_neg (by simp [hopen]), if_neg hk, Engine.versionsMet]
  dsimp only
  rw [hl0, hl1]
  cases e.memtable.get k with
  | ok v => rfl
  | error err =>
      rw [List.nil_append, List.head?_append]
      cases (Engine.tableVersions cfg.cipher e'.l0Dir k e.l0Tables.reverse).head? with
      | some v => rfl
      | none =>
          cases (Engine.tableVersions cfg.cipher e'.l1Dir k e.l1Tables.reverse).head? with
          | some v => rfl
          | none => rfl

/-- A newest version that can be read comes first. -/
theorem head_of_newest {l l' : List MemValue} {v : MemValue} (hl : l.Pairwise Supersedes)
    (hsub : l'.Sublist l) (hnewest : newest l = some v) (hv : v ∈ l') : l'.head? = some v := by
  rw [← newest_eq_head (hl.sublist hsub)]
  refine newest_eq_of_supersedes hv fun w hw => ?_
  rw [newest_eq_head hl] at hnewest
  obtain ⟨rest, rfl⟩ := List.head?_eq_some_iff.mp hnewest
  rcases List.mem_cons.mp (hsub.subset hw) with rfl | hw
  · exact Supersedes.refl _
  · exact (List.pairwise_cons.mp hl).1 w hw

/-- **Right answers over damage**, for a state whose tables are in order. -/
theorem Engine.Rep.noStaleRead_iff (h : e.Rep cfg s) (hsound : s.Sound)
    (hd : e.DamagedTo cfg e') (k : Bytes) :
    Engine.NoStaleRead cfg k e e' ↔
      (e.isOpen = true → k ≠ [] → Engine.NewestReadable cfg k e e') := by
  have hisOpen : e'.isOpen = e.isOpen := by rw [hd.rest]
  constructor
  · intro hstale hopen hk
    refine (hstale.answer ?_).1
    rw [h.get_harmed hd hopen hk]
    cases (e'.versionsMet cfg k).head? with
    | some v => exact answered_answerOf v
    | none => exact rfl
  · intro hgood
    -- a closed engine and an empty key give other errors
    by_cases hopen : e.isOpen = true
    swap
    · have hno : ¬ Answered (e'.get cfg k) := by
        rw [Engine.get, if_pos (by rw [hisOpen]; simpa using hopen)]
        intro hans
        cases hans
      exact ⟨fun hans => absurd hans hno, fun _ => hno⟩
    by_cases hk : k = []
    · have hno : ¬ Answered (e'.get cfg k) := by
        rw [Engine.get, if_neg (by simp [hisOpen, hopen]), if_pos hk]
        intro hans
        cases hans
      exact ⟨fun hans => absurd hans hno, fun _ => hno⟩
    have hreadable := hgood hopen hk
    refine ⟨fun _ => ⟨hreadable, ?_⟩, fun hnot => absurd hreadable hnot⟩
    have hsub := h.versionsMet_harmed hd k
    have hordered : (e.versionsMet cfg k).Pairwise Supersedes := by
      rw [h.versionsMet]
      exact hsound k
    rw [h.get_harmed hd hopen hk, Engine.newestAnswer]
    cases hnewest : newest (e.versionsMet cfg k) with
    | some v => rw [head_of_newest hordered hsub hnewest (hreadable v hnewest)]
    | none =>
        rw [newest_eq_none_iff.mp hnewest] at hsub
        rw [List.eq_nil_of_sublist_nil hsub]
        rfl

end

/-! ## Every run -/

/-- **States in order.** From an empty directory without an I/O failure: any
operations of one process, or any operations, closes, opens and new
processes whose log records can be read back and whose clock readings
increase with one width. -/
inductive Engine.Orderly (cfg : Config) : Engine → Prop
  | run {io : OpenIo} {e : Engine} {ops : List (Op cfg.cipher)} :
      (Engine.fresh cfg).open cfg io = (.ok 0, e) → (∀ op ∈ ops, op.Clean) →
        Orderly cfg (e.run cfg ops)
  | acts {io : OpenIo} {e : Engine} {acts : List (Act cfg.cipher)} {width : Nat} :
      (Engine.fresh cfg).open cfg io = (.ok 0, e) → e.Quiet cfg acts →
        Ticks width [] (e.readings cfg acts) → Orderly cfg (e.actAll cfg acts)

theorem Engine.Orderly.rep {cfg : Config} (hcfg : cfg.Reliable) {e : Engine}
    (h : e.Orderly cfg) : ∃ s, e.Rep cfg s ∧ s.Sound := by
  cases h with
  | run hopen hops =>
      obtain ⟨s, rs, hinv⟩ := (inv_of_open hopen).run hcfg _ hops
      exact ⟨s, hinv.rep, hinv.sound⟩
  | acts hopen hquiet hticks =>
      obtain ⟨hopens, h₀⟩ := stands_of_open hcfg hopen _
      have hranked := (h₀.actAll hopens _ hquiet hticks).ranked
      exact ⟨_, hranked.rep, hranked.sound⟩

/-- **A read is right exactly if the newest version can be read.** In every
state in order, for every key and every damage to the record bodies of the
table files. A record that cannot be read is never reported. -/
theorem stale_read_iff {cfg : Config} (hcfg : cfg.Reliable) {e e' : Engine}
    (he : e.Orderly cfg) (hd : e.DamagedTo cfg e') (k : Bytes) :
    Engine.NoStaleRead cfg k e e' ↔
      (e.isOpen = true → k ≠ [] → Engine.NewestReadable cfg k e e') := by
  obtain ⟨s, hrep, hsound⟩ := he.rep hcfg
  exact hrep.noStaleRead_iff hsound hd k

/-- A key is set to 1 and flushed, then set to 2 and flushed. -/
def twoFlushes : List (Op (smallConfig 4096).cipher) :=
  [Small.set 4096 97 1, .flush (FlushIo.quiet (0 : Nat)), Small.set 4096 97 2,
   .flush (FlushIo.quiet (0 : Nat))]

def flushedTwice : Engine := (Small.opened 4096).run (smallConfig 4096) twoFlushes

theorem flushedTwice_orderly : flushedTwice.Orderly (smallConfig 4096) := by
  refine Engine.Orderly.run (Small.opened_ok 4096 (by decide +kernel)) ?_
  intro op hop
  simp only [twoFlushes, List.mem_cons, List.not_mem_nil, or_false] at hop
  rcases hop with rfl | rfl | rfl | rfl <;> exact FlushIo.quiet_clean _

/-- One byte of a level 0 file, in the encrypted value of its first record,
is overwritten. -/
def Engine.harm (n : Nat) (e : Engine) : Engine :=
  { e with
    l0Dir := e.l0Dir.insert (sstName 0 n)
      (((e.l0Dir.find (sstName 0 n)).getD []).set 96 0) }

theorem Engine.damagedTo_harm {cfg : Config} {n : Nat} {e : Engine}
    (h : ∀ rd ∈ e.l0Tables, ∀ i ∈ rd.index,
      readRecordAt cfg.cipher {} ((e.harm n).l0Dir.find rd.path) i.offset
          = readRecordAt cfg.cipher {} (e.l0Dir.find rd.path) i.offset ∨
        (readRecordAt cfg.cipher {} ((e.harm n).l0Dir.find rd.path) i.offset).isOk
          = false) :
    e.DamagedTo cfg (e.harm n) :=
  ⟨rfl, fun rd hrd => OnlyHarmed.of_unreadable (h rd hrd), fun _ _ => OnlyHarmed.refl _ _ _⟩

/-- The older version is damaged: the newer one is still read. -/
theorem older_harmed_read :
    Engine.NoStaleRead (smallConfig 4096) [97] flushedTwice (flushedTwice.harm 1) := by
  have hdamaged : flushedTwice.DamagedTo (smallConfig 4096) (flushedTwice.harm 1) :=
    Engine.damagedTo_harm (by decide +kernel)
  have hiff := stale_read_iff (smallConfig_standalone 4096).toReliable flushedTwice_orderly
    hdamaged [97]
  rw [hiff]
  exact fun _ _ => by decide +kernel

/-- **A stale read.** The newer version is damaged, and `Get` returns the
value that was overwritten. -/
theorem newer_harmed_stale :
    flushedTwice.Orderly (smallConfig 4096) ∧
      flushedTwice.DamagedTo (smallConfig 4096) (flushedTwice.harm 2) ∧
      flushedTwice.newestAnswer (smallConfig 4096) [97] = .ok [2] ∧
      (flushedTwice.harm 2).get (smallConfig 4096) [97] = .ok [1] ∧
      ¬ Engine.NoStaleRead (smallConfig 4096) [97] flushedTwice (flushedTwice.harm 2) := by
  have hget : (flushedTwice.harm 2).get (smallConfig 4096) [97] = .ok [1] := by decide +kernel
  have hnewest : flushedTwice.newestAnswer (smallConfig 4096) [97] = .ok [2] := by
    decide +kernel
  refine ⟨flushedTwice_orderly, Engine.damagedTo_harm (by decide +kernel), hnewest, hget, ?_⟩
  intro h
  have hsame := (h.answer (by rw [hget]; trivial)).2
  rw [hget, hnewest] at hsame
  exact absurd hsame (by decide)

end VaultKV
