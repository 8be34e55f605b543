import VaultKV.Engine.Refine
import VaultKV.Lib.LsmScan

/-!
# Engine — scans

`ScanPrefix` merges per-table results that were cut to twice the limit
BEFORE newer versions and tombstones are taken into account. It agrees with
`Get` in a state exactly when no version it did not see matters
(`Lsm.ScanExact`).
-/

namespace VaultKV

open Lib

/-- The keys with a given start. -/
def startsWith (start k : Bytes) : Bool := start.isPrefixOf k

theorem scanTables_eq {c : Cipher} {dir : SortedMap Bytes Bytes} {rds : List SstableReader}
    {ts : List (Table Bytes Bytes)} (h : List.Forall₂ (TableAt c dir) rds ts)
    (start : Bytes) (limit : Nat) :
    Engine.scanTables c dir start limit rds
      = (ts.map (shown (startsWith start) limit)).flatMap SortedMap.entries := by
  induction h with
  | nil => rfl
  | @cons rd t rds ts hhead _ ih =>
      obtain ⟨file, hfile, -, hreads⟩ := hhead
      rw [List.map_cons, List.flatMap_cons, ← ih, Engine.scanTables, List.flatMap_cons,
        hfile, hreads.scanPrefix, map_entry_ofEntry]
      rfl

/-- The candidates of a scan are what the tree shows it. -/
theorem Engine.Rep.scanCandidates {cfg : Config} {e : Engine} {s : Lsm Bytes Bytes}
    (h : e.Rep cfg s) (start : Bytes) (limit : Nat) : e.scanCandidates cfg start limit
      = (s.scanPath (startsWith start) (limit * 2 % 2 ^ 64)).flatMap SortedMap.entries := by
  rw [Engine.scanCandidates, scanTables_eq h.reverse_l0, scanTables_eq h.reverse_l1,
    MemTable.snapshotSorted_true, h.mem, Lsm.scanPath, List.flatMap_cons, Lsm.tables,
    List.map_append, List.flatMap_append]
  rfl

/-- **`ScanPrefix` scans the tree.** -/
theorem Engine.Rep.scanPrefix {cfg : Config} {e : Engine} {s : Lsm Bytes Bytes}
    (h : e.Rep cfg s) (hopen : e.isOpen = true) (start : Bytes) {n : Nat} (h1 : 1 ≤ n)
    (h2 : n ≤ 65535) : e.scanPrefix cfg start n = .ok (s.scan (startsWith start) n) := by
  have hlimit : n * 2 % 2 ^ 64 = 2 * n := by omega
  rw [Engine.scanPrefix, if_neg (by simp [hopen])]
  dsimp only
  rw [if_neg (show ¬ n = 0 by omega), if_neg (by omega), h.scanCandidates, hlimit]
  rfl

theorem Engine.Inv.get_nil {cfg : Config} {e : Engine} {s : Lsm Bytes Bytes}
    {rs : List WalRecord} (h : e.Inv cfg s rs) : s.get [] = none := by
  rw [Lsm.get, search_eq_head]
  cases hh : hits s.path [] with
  | nil => rfl
  | cons v l =>
      have hlog := h.logged [] v (by rw [hh]; exact List.mem_cons_self)
      exact absurd rfl (h.key_ne_nil hlog)

/-- `Get` finds a value exactly where the tree has one. -/
theorem Engine.Inv.get_ok_iff {cfg : Config} {e : Engine} {s : Lsm Bytes Bytes}
    {rs : List WalRecord} (h : e.Inv cfg s rs) (k v : Bytes) :
    e.get cfg k = .ok v ↔ s.get k = some v := by
  by_cases hk : k = []
  · subst hk
    rw [h.get_nil, Engine.get, if_neg (by simp [h.isOpen]), if_pos rfl]
    exact iff_of_false (fun hv => by cases hv) (fun hv => by cases hv)
  · exact h.answers_iff hk (some v)

/-- Every state a run without failures reaches satisfies the invariant. -/
theorem Engine.Inv.run {cfg : Config} (hcfg : cfg.Reliable) (ops : List (Op cfg.cipher)) :
    ∀ {e : Engine} {s : Lsm Bytes Bytes} {rs : List WalRecord}, e.Inv cfg s rs →
      (∀ op ∈ ops, op.Clean) → ∃ s' rs', (e.run cfg ops).Inv cfg s' rs' := by
  induction ops with
  | nil => intro e s rs h _; exact ⟨s, rs, h⟩
  | cons op ops ih =>
      intro e s rs h hops
      obtain ⟨s', rs', hinv, -⟩ := h.step hcfg (hops op List.mem_cons_self)
      exact ih hinv fun op' hop' => hops op' (List.mem_cons_of_mem _ hop')

/-- **`ScanPrefix` agrees with `Get` exactly when nothing hidden is missed.**
In every state a run without failures reaches, for every start and every
limit from 1 to 65535, the scan returns the first pairs that `Get` would
give, if and only if the tables of that state hide nothing that matters. -/
theorem scanPrefix_agrees_iff {cfg : Config} (hcfg : cfg.Standalone) {io : OpenIo}
    {e : Engine} (hopen : (Engine.fresh cfg).open cfg io = (.ok 0, e))
    {ops : List (Op cfg.cipher)} (hops : ∀ op ∈ ops, op.Clean) (start : Bytes) {n : Nat}
    (h1 : 1 ≤ n) (h2 : n ≤ 65535) :
    (∃ out, (e.run cfg ops).scanPrefix cfg start n = .ok out ∧
      IsFirst (fun k v => start.isPrefixOf k = true ∧ (e.run cfg ops).get cfg k = .ok v)
        n out) ↔
      ((e.run cfg ops).contents cfg).ScanExact (startsWith start) n := by
  obtain ⟨s, rs, hinv⟩ := (inv_of_open hopen).run hcfg.toReliable ops hops
  rw [hinv.rep.contents, ← Lsm.scan_isFirst_iff hinv.sound,
    hinv.rep.scanPrefix hinv.isOpen start h1 h2]
  simp only [hinv.get_ok_iff, Except.ok.injEq, exists_eq_left', startsWith]

/-- Two tombstones in front of a live key, in one table. -/
def maskedKey : List (Op (smallConfig 4096).cipher) :=
  [Small.set 4096 99 1, Small.delete 4096 97, Small.delete 4096 98, .flush (.quiet (0 : Nat))]

/-- **A scan misses a live key.** With limit 1 the table hands out its two
tombstones and nothing else. -/
theorem maskedKey_scan_misses :
    ((Engine.fresh (smallConfig 4096)).open (smallConfig 4096) {}).1 = .ok 0 ∧
    ((Small.opened 4096).run (smallConfig 4096) maskedKey).scanPrefix (smallConfig 4096) [] 1
      = .ok [] ∧
    ((Small.opened 4096).run (smallConfig 4096) maskedKey).get (smallConfig 4096) [99]
      = .ok [1] := by
  decide +kernel

/-- Two live keys in front of a tombstone, in one table. -/
def shownKey : List (Op (smallConfig 4096).cipher) :=
  [Small.set 4096 97 1, Small.set 4096 98 1, Small.delete 4096 99, .flush (.quiet (0 : Nat))]

theorem shownKey_scan_agrees :
    ∃ out, ((Small.opened 4096).run (smallConfig 4096) shownKey).scanPrefix
        (smallConfig 4096) [] 1 = .ok out ∧
      IsFirst (fun k v => List.isPrefixOf [] k = true ∧
        ((Small.opened 4096).run (smallConfig 4096) shownKey).get (smallConfig 4096) k
          = .ok v) 1 out := by
  refine (scanPrefix_agrees_iff (smallConfig_standalone 4096)
    (Small.opened_ok 4096 (by decide +kernel)) ?_ [] (by decide) (by decide)).mpr
    (by decide +kernel)
  intro op hop
  simp only [shownKey, List.mem_cons, List.not_mem_nil, or_false] at hop
  rcases hop with rfl | rfl | rfl | rfl
  · exact FlushIo.quiet_clean _
  · exact FlushIo.quiet_clean _
  · trivial
  · exact FlushIo.quiet_clean _

end VaultKV
