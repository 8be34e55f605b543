import VaultKV.Engine.Recovery

/-!
# Engine — table files on their shelf

`LoadSstablesFromDisk` lists a level by FILE NAME; `FlushMemTable` and
`MaybeCompact` list it by the time of installation. The two lists are the
same as long as the clock readings in the names increase and have one
width: `Shelved` says so of a directory and its readers. A directory that is
loaded again then gives readers of the same tables in the same order
(`Shelved.reload`).

The second half is about the log's side of a restart: replaying it leaves
each key's LAST record, the one with the largest number
(`replayed_newest`).
-/

namespace VaultKV

open Lib

/-- The readings continue the earlier ones: they increase, and the new ones
have `width` digits. -/
def Ticks (width : Nat) (used new : List Nat) : Prop :=
  (used ++ new).Pairwise (· < ·) ∧ ∀ n ∈ new, (decimal n).length = width

instance (width : Nat) (used new : List Nat) : Decidable (Ticks width used new) :=
  inferInstanceAs (Decidable (_ ∧ _))

theorem Ticks.take {width : Nat} {used new more : List Nat}
    (h : Ticks width used (new ++ more)) : Ticks width used new := by
  refine ⟨?_, fun n hn => h.2 n (List.mem_append_left _ hn)⟩
  have hall := h.1
  rw [← List.append_assoc] at hall
  exact (List.pairwise_append.mp hall).1

theorem Ticks.drop {width : Nat} {used new more : List Nat}
    (h : Ticks width used (new ++ more)) : Ticks width (used ++ new) more :=
  ⟨by rw [List.append_assoc]; exact h.1, fun n hn => h.2 n (List.mem_append_right _ hn)⟩

theorem Ticks.later {width n : Nat} {used : List Nat} (h : Ticks width used [n]) :
    ∀ m ∈ used, m < n :=
  fun m hm => (List.pairwise_append.mp h.1).2.2 m hm n List.mem_cons_self

/-! ## A level and its files -/

/-- The files of a directory are those of the readers, in name order, and
their names carry readings of `used`. -/
structure Shelved (width : Nat) (used : List Nat) (dir : SortedMap Bytes Bytes)
    (rds : List SstableReader) : Prop where
  keys : dir.keys = rds.map SstableReader.path
  named : ∀ p ∈ dir.keys, ∃ n ∈ used, ∃ i, p = sstName n i ∧ (decimal n).length = width

namespace Shelved

variable {width : Nat} {used : List Nat} {dir : SortedMap Bytes Bytes}
  {rds : List SstableReader}

theorem empty (width : Nat) : Shelved width [] SortedMap.empty [] :=
  ⟨rfl, fun _ hp => absurd hp List.not_mem_nil⟩

theorem mono (h : Shelved width used dir rds) (new : List Nat) :
    Shelved width (used ++ new) dir rds := by
  refine ⟨h.keys, fun p hp => ?_⟩
  obtain ⟨n, hn, hname⟩ := h.named p hp
  exact ⟨n, List.mem_append_left _ hn, hname⟩

/-- The name of a later reading is larger than every name in use. -/
theorem lt_name (h : Shelved width used dir rds) {n : Nat} (hn : Ticks width used [n])
    (i : Nat) : ∀ p ∈ dir.keys, p < sstName n i := by
  intro p hp
  obtain ⟨m, hm, j, rfl, hwidth⟩ := h.named p hp
  exact sstName_lt (hn.later m hm) (hwidth.trans (hn.2 n List.mem_cons_self).symm) j i

theorem fresh (h : Shelved width used dir rds) {n : Nat} (hn : Ticks width used [n])
    (i : Nat) : sstName n i ∉ dir.keys :=
  fun hp => lt_irrefl _ (h.lt_name hn i _ hp)

/-- **A new file goes to the end**, of the directory and of the readers. -/
theorem install (h : Shelved width used dir rds) {n i : Nat} (hn : Ticks width used [n])
    {rd : SstableReader} (hrd : rd.path = sstName n i) (f : Bytes) :
    Shelved width (used ++ [n]) (dir.insert (sstName n i) f) (rds ++ [rd]) := by
  have hkeys := SortedMap.keys_insert_last (h.lt_name hn i) f
  refine ⟨by rw [hkeys, h.keys, List.map_append, List.map_singleton, hrd], ?_⟩
  intro p hp
  rw [hkeys] at hp
  rcases List.mem_append.mp hp with hp | hp
  · exact (h.mono [n]).named p hp
  · exact ⟨n, List.mem_append_right _ List.mem_cons_self, i, List.mem_singleton.mp hp,
      hn.2 n List.mem_cons_self⟩

theorem find_removeFiles {fails : Nat → Bool} (hfails : ∀ i, fails i = false)
    (ps : List Bytes) : ∀ i (dir : SortedMap Bytes Bytes) p,
      (Engine.removeFiles fails i ps dir).find p = if p ∈ ps then none else dir.find p := by
  induction ps with
  | nil => intro i dir p; rw [if_neg List.not_mem_nil]; rfl
  | cons q ps ih =>
      intro i dir p
      rw [Engine.removeFiles, hfails i, ih, if_neg Bool.false_ne_true, SortedMap.find_erase]
      by_cases hp : p ∈ ps
      · rw [if_pos hp, if_pos (List.mem_cons_of_mem _ hp)]
      · by_cases hq : p = q
        · rw [if_neg hp, if_pos hq, if_pos (hq ▸ List.mem_cons_self)]
        · rw [if_neg hp, if_neg hq, if_neg fun h => (List.mem_cons.mp h).elim hq hp]

/-- **Removing the readers' files** empties the directory. -/
theorem removeFiles (h : Shelved width used dir rds) {fails : Nat → Bool}
    (hfails : ∀ i, fails i = false) :
    Shelved width used (Engine.removeFiles fails 0 (rds.map SstableReader.path) dir) [] := by
  have hnone : ∀ p, p ∉
      (Engine.removeFiles fails 0 (rds.map SstableReader.path) dir).keys := by
    intro p
    rw [← SortedMap.find_eq_none_iff, find_removeFiles hfails]
    by_cases hp : p ∈ rds.map SstableReader.path
    · rw [if_pos hp]
    · rw [if_neg hp, SortedMap.find_eq_none_iff, h.keys]
      exact hp
  exact ⟨List.eq_nil_iff_forall_not_mem.mpr hnone, fun p hp => absurd hp (hnone p)⟩

/-! ## Loading a level -/

theorem tablePaths (h : Shelved width used dir rds) :
    Engine.tablePaths dir false = rds.map SstableReader.path := by
  rw [Engine.tablePaths, if_neg Bool.false_ne_true, ← h.keys, List.filter_eq_self]
  intro p hp
  obtain ⟨n, -, i, rfl, -⟩ := h.named p hp
  exact hasSstExtension_sstName n i

/-- Opening the files of known tables again. -/
theorem openTables_paths {c : Cipher} (hc : c.Lawful) {ts : List (Table Bytes Bytes)}
    (hat : List.Forall₂ (TableAt c dir) rds ts) {ios : Nat → ReadIo}
    (hios : ∀ i, ios i = {}) :
    ∀ i, ∃ rds', Engine.openTables dir ios i (rds.map SstableReader.path) = (.ok 0, rds') ∧
      List.Forall₂ (TableAt c dir) rds' ts ∧
      rds'.map SstableReader.path = rds.map SstableReader.path := by
  induction hat with
  | nil => intro i; exact ⟨[], rfl, List.Forall₂.nil, rfl⟩
  | @cons rd t rds ts hhead _ ih =>
      intro i
      obtain ⟨file, hfile, htable, -⟩ := hhead
      obtain ⟨rd', hopen, hpath, hreads⟩ := htable.opens hc rd.path
      obtain ⟨rds', hrest, hats, hpaths⟩ := ih (i + 1)
      refine ⟨rd' :: rds', ?_, List.Forall₂.cons ⟨file, by rw [hpath, hfile], htable, hreads⟩
        hats, by rw [List.map_cons, List.map_cons, hpath, hpaths]⟩
      rw [List.map_cons, Engine.openTables, hios, hfile, hopen]
      dsimp only
      rw [hrest]

/-- **Loading a level again** gives readers of the same tables, in the same
order. -/
theorem reload {c : Cipher} (hc : c.Lawful) (h : Shelved width used dir rds)
    {ts : List (Table Bytes Bytes)} (hat : List.Forall₂ (TableAt c dir) rds ts)
    {ios : Nat → ReadIo} (hios : ∀ i, ios i = {}) :
    ∃ rds', Engine.openTables dir ios 0 (Engine.tablePaths dir false) = (.ok 0, rds') ∧
      List.Forall₂ (TableAt c dir) rds' ts ∧ Shelved width used dir rds' := by
  obtain ⟨rds', hopen, hats, hpaths⟩ := openTables_paths hc hat hios 0
  refine ⟨rds', by rw [h.tablePaths]; exact hopen, hats, ⟨?_, h.named⟩⟩
  rw [hpaths]
  exact h.keys

end Shelved

/-! ## What a replay leaves -/

/-- **A replayed memtable holds each key's newest version.** -/
theorem replayed_newest (rs : List WalRecord) (hw : Writes rs) {m : MemTable}
    (hseqs : (rs.map WalRecord.seq).Pairwise (· < ·))
    {k : Bytes} {v w : MemValue} (hv : (replayed rs m).table.find k = some v)
    (hl : Logged rs k w) : w.seq ≤ v.seq := by
  -- by induction from the back: the last record of a key has the last word
  induction rs using List.reverseRecOn with
  | nil =>
      obtain ⟨r, hr, -⟩ := hl
      cases hr
  | append_singleton rs r ih =>
      obtain ⟨-, hop⟩ := hw r (List.mem_append_right _ List.mem_cons_self)
      obtain ⟨u, hu, -⟩ := version?_write hop
      rw [List.map_append, List.pairwise_append] at hseqs
      have hput : (replayed (rs ++ [r]) m).table = (replayed rs m).table.insert r.key u := by
        rw [replayed, List.foldl_append, List.foldl_cons, List.foldl_nil, hu]
        rfl
      rw [hput, SortedMap.find_insert] at hv
      have hbelow : ∀ r' ∈ rs, r'.seq ≤ r.seq := fun r' hr' =>
        (hseqs.2.2 r'.seq (List.mem_map.mpr ⟨r', hr', rfl⟩) r.seq (by simp)).le
      obtain ⟨r', hr', hk', hv'⟩ := hl
      by_cases hk : k = r.key
      · rw [if_pos hk] at hv
        obtain rfl := Option.some.inj hv
        rw [(WalRecord.version?_spec hu).1, (WalRecord.version?_spec hv').1]
        rcases List.mem_append.mp hr' with hr' | hr'
        · exact hbelow r' hr'
        · rw [List.mem_singleton.mp hr']
      · rw [if_neg hk] at hv
        refine ih (fun r' hr' => hw r' (List.mem_append_left _ hr')) hseqs.1 hv ?_
        rcases List.mem_append.mp hr' with hr' | hr'
        · exact ⟨r', hr', hk', hv'⟩
        · rw [List.mem_singleton.mp hr'] at hk'
          exact absurd hk'.symm hk

end VaultKV
