import VaultKV.Engine.Scan

/-!
# Engine — flush and compaction that fail by themselves

A merge of level 0 in which no record is live writes NO FILE and returns
`Ok`; `MaybeCompact` then opens the file that was not written, fails, and
leaves level 0 as it is. Four flushes of tombstones are enough. `Stuck` is
the tree in which this happens. In every other state a run without failures
reaches, flush and compaction return `Ok`, and `MaybeCompact` leaves fewer
than four tables on level 0.
-/

namespace VaultKV

open Lib

/-- At least four tables on level 0, and the newest version of each of
their keys is a tombstone. -/
def Lsm.Stuck (s : Lsm Bytes Bytes) : Prop :=
  4 ≤ s.l0.length ∧ ∀ x ∈ s.merged.entries, x.2.tombstone = true

instance (s : Lsm Bytes Bytes) : Decidable (Lsm.Stuck s) :=
  inferInstanceAs (Decidable (_ ∧ _))

theorem Lsm.live_eq_nil_iff (s : Lsm Bytes Bytes) :
    (Lsm.live s.merged).entries = [] ↔ ∀ x ∈ s.merged.entries, x.2.tombstone = true := by
  rw [Lsm.live, SortedMap.filter, List.filter_eq_nil_iff]
  simp only [Bool.not_eq_true', Bool.not_eq_false]

/-- With four tables on level 0, the tree is stuck or can be compacted. -/
theorem Lsm.stuck_or_compactable {s : Lsm Bytes Bytes} (hfour : 4 ≤ s.l0.length) :
    Lsm.Stuck s ∨ Lsm.Compactable s := by
  by_cases hnone : (Lsm.live s.merged).entries = []
  · exact Or.inl ⟨hfour, (Lsm.live_eq_nil_iff s).mp hnone⟩
  · exact Or.inr ⟨hfour, hnone⟩

/-- What the caller of `MaybeCompact` may rely on. -/
def Compacted (out : Res Nat × Engine) : Prop :=
  out.1 = .ok 0 ∧ out.2.l0Tables.length < 4

instance (out : Res Nat × Engine) : Decidable (Compacted out) :=
  inferInstanceAs (Decidable (_ ∧ _))

namespace Engine.Inv

variable {cfg : Config} {e : Engine} {s : Lsm Bytes Bytes} {rs : List WalRecord}

/-- What `MaybeCompact` does in a stuck tree and in any other. -/
theorem maybeCompact_cases (hcfg : cfg.Reliable) (h : e.Inv cfg s rs)
    {io : CompactIo cfg.cipher} (hio : io.Clean) :
    (Lsm.Stuck s ∧ (e.maybeCompact cfg io).1
        = .error (Status.ioError "failed opening sstable for read")) ∨
      (¬ Lsm.Stuck s ∧ Compacted (e.maybeCompact cfg io)) := by
  have hlen := h.rep.length_l0
  by_cases hfew : s.l0.length < 4
  · have hl0 : e.l0Tables.length < 4 := by omega
    rw [maybeCompact_few io hl0]
    exact Or.inr ⟨fun hstuck => absurd hstuck.1 (by omega), rfl, hl0⟩
  rcases Lsm.stuck_or_compactable (Nat.le_of_not_lt hfew) with hstuck | hcompact
  · -- no file is written, and then it is opened
    rw [maybeCompact_dead hcfg.lawful hio h.rep hstuck.1
      ((Lsm.live_eq_nil_iff s).mpr hstuck.2) (h.namedL1.fresh io.nanos)]
    exact Or.inl ⟨hstuck, rfl⟩
  · obtain ⟨rd, f, -, -, -, heq⟩ := maybeCompact_clean hcfg.lawful hcfg.encrypts hio h.rep
      h.counts h.bound h.logged hcompact
    rw [heq]
    exact Or.inr ⟨fun hstuck => hcompact.2 ((Lsm.live_eq_nil_iff s).mpr hstuck.2), rfl,
      Nat.zero_lt_succ 3⟩

/-- **`MaybeCompact` does its work** exactly when the tree is not stuck. -/
theorem compacted_iff (hcfg : cfg.Reliable) (h : e.Inv cfg s rs)
    {io : CompactIo cfg.cipher} (hio : io.Clean) :
    Compacted (e.maybeCompact cfg io) ↔ ¬ Lsm.Stuck s := by
  rcases h.maybeCompact_cases hcfg hio with ⟨hstuck, herr⟩ | ⟨hnot, hdone⟩
  · refine iff_of_false (fun hdone => ?_) (fun hnot => hnot hstuck)
    rw [Compacted, herr] at hdone
    cases hdone.1
  · exact iff_of_true hdone hnot

/-- **`FlushMemTable` succeeds** exactly when there is nothing to flush or
the tree it leaves is not stuck. -/
theorem flush_ok_iff (hcfg : cfg.Reliable) (h : e.Inv cfg s rs) {io : FlushIo cfg.cipher}
    (hio : io.Clean) :
    (e.flushMemTable cfg io).1 = .ok 0 ↔ s.mem.entries = [] ∨ ¬ Lsm.Stuck s.flush := by
  rw [Engine.flushMemTable, if_neg (by simp [h.isOpen])]
  by_cases hmem : s.mem.entries = []
  · rw [buildAndInstall_empty h.rep hmem]
    exact iff_of_true rfl (Or.inl hmem)
  obtain ⟨rd, f, -, -, hat, hbuild⟩ := buildAndInstall_clean hcfg.lawful hcfg.encrypts
    hio.build hio.install h.rep h.counts h.bound h.logged hmem
  have hrep := h.rep.flush hat
    (fun hp => h.namedL0.fresh io.nanos (paths_subset h.rep.l0 hp))
    (m := (e.memtable.drainSorted true).2) rfl (e.nextSstableId + 1)
  rw [hbuild, or_iff_right hmem]
  rcases (h.flushed hrep).maybeCompact_cases hcfg hio.compact with
    ⟨hstuck, herr⟩ | ⟨hnot, hdone⟩
  · refine iff_of_false (fun hok => ?_) (fun hnot => hnot hstuck)
    rw [herr] at hok
    cases hok
  · exact iff_of_true hdone.1 hnot

end Engine.Inv

/-- **Flush and compaction fail exactly when only tombstones are left.** In
every state that a run of `Set`, `Delete`, `FlushMemTable` and
`MaybeCompact` without I/O or crypto failure reaches, replication off:
`MaybeCompact` returns `Ok` and leaves fewer than four level 0 tables if and
only if the tree is not stuck; `FlushMemTable` returns `Ok` if and only if
the memtable is empty or the tree with the memtable on level 0 is not
stuck. -/
theorem flush_and_compact_ok_iff {cfg : Config} (hcfg : cfg.Standalone) {io : OpenIo}
    {e : Engine} (hopen : (Engine.fresh cfg).open cfg io = (.ok 0, e))
    {ops : List (Op cfg.cipher)} (hops : ∀ op ∈ ops, op.Clean) :
    (∀ io' : CompactIo cfg.cipher, io'.Clean →
      (Compacted ((e.run cfg ops).maybeCompact cfg io') ↔
        ¬ Lsm.Stuck ((e.run cfg ops).contents cfg))) ∧
    ∀ io' : FlushIo cfg.cipher, io'.Clean →
      (((e.run cfg ops).flushMemTable cfg io').1 = .ok 0 ↔
        (e.run cfg ops).memtable.table.entries = [] ∨
          ¬ Lsm.Stuck ((e.run cfg ops).contents cfg).flush) := by
  obtain ⟨s, rs, hinv⟩ := (inv_of_open hopen).run hcfg.toReliable ops hops
  rw [hinv.rep.contents, hinv.rep.mem]
  exact ⟨fun io' hio' => hinv.compacted_iff hcfg.toReliable hio',
    fun io' hio' => hinv.flush_ok_iff hcfg.toReliable hio'⟩

/-- Three flushes of tombstones, and a fourth tombstone in the memtable. -/
def fourTombstones : List (Op (smallConfig 4096).cipher) :=
  [Small.delete 4096 97, .flush (.quiet (0 : Nat)), Small.delete 4096 98,
   .flush (.quiet (0 : Nat)), Small.delete 4096 99, .flush (.quiet (0 : Nat)),
   Small.delete 4096 100]

theorem fourTombstones_clean : ∀ op ∈ fourTombstones, op.Clean := by
  intro op hop
  simp only [fourTombstones, List.mem_cons, List.not_mem_nil, or_false] at hop
  rcases hop with rfl | rfl | rfl | rfl | rfl | rfl | rfl
  · trivial
  · exact FlushIo.quiet_clean _
  · trivial
  · exact FlushIo.quiet_clean _
  · trivial
  · exact FlushIo.quiet_clean _
  · trivial

/-- With three tables `MaybeCompact` has nothing to do. -/
theorem fourTombstones_compacted :
    Compacted (((Small.opened 4096).run (smallConfig 4096) fourTombstones).maybeCompact
      (smallConfig 4096) (.quiet (0 : Nat))) := by
  have hnot : ¬ Lsm.Stuck (((Small.opened 4096).run (smallConfig 4096)
      fourTombstones).contents (smallConfig 4096)) := by decide +kernel
  have hclean : (CompactIo.quiet (0 : Nat) : CompactIo (smallConfig 4096).cipher).Clean :=
    (FlushIo.quiet_clean (c := (smallConfig 4096).cipher) (0 : Nat)).compact
  have hiff := (flush_and_compact_ok_iff (smallConfig_standalone 4096)
    (Small.opened_ok 4096 (by decide +kernel)) fourTombstones_clean).1 _ hclean
  rw [hiff]
  exact hnot

/-- **A flush that fails by itself**: the fourth flush of tombstones ends
with an I/O error although no I/O failed, level 0 keeps its four tables, and
`MaybeCompact` ends the same way from then on. -/
theorem fourTombstones_flush_fails :
    let e := (Small.opened 4096).run (smallConfig 4096) fourTombstones
    let e' := (e.flushMemTable (smallConfig 4096) (.quiet (0 : Nat))).2
    ((Small.opened 4096).trace (smallConfig 4096) fourTombstones).all
      (fun ev => ev.2.isOk) = true ∧
    (e.flushMemTable (smallConfig 4096) (.quiet (0 : Nat))).1
      = .error (Status.ioError "failed opening sstable for read") ∧
    e'.l0Tables.length = 4 ∧
    (e'.maybeCompact (smallConfig 4096) (.quiet (0 : Nat))).1
      = .error (Status.ioError "failed opening sstable for read") ∧
    (e'.maybeCompact (smallConfig 4096) (.quiet (0 : Nat))).2.l0Tables.length = 4 := by
  decide +kernel

end VaultKV
