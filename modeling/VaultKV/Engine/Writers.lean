import VaultKV.Engine.Lanes

/-!
# Engine — concurrent writers and the log

The log numbers the records; nothing makes the threads store them in that
order, or keeps a table from being installed into a level 0 that is about
to be emptied. In a POLITE interleaving neither happens, and once all calls
have returned every key answers with its largest record
(`concurrent_get_latest`). The runs at the end show both failures.
-/

namespace VaultKV

open Lib

/-! ## Calls -/

/-- The call meets no I/O failure. -/
def Call.Clean {c : Cipher} : Call c → Prop
  | .set io _ _ => io.flush.Clean
  | .delete _ _ => True
  | .flush io => io.Clean
  | .compact io => io.Clean
  | .get _ => True

/-- The key a call writes. -/
def Call.key? {c : Cipher} : Call c → Option Bytes
  | .set _ key _ => some key
  | .delete _ key => some key
  | _ => none

def Call.deletes {c : Cipher} : Call c → Bool
  | .delete _ _ => true
  | _ => false

/-- The call has returned, not with an error. -/
def Phase.done {c : Cipher} : Phase c → Bool
  | .returned (.ok _) => true
  | .answered _ => true
  | _ => false

theorem Call.begin_idle {c : Cipher} (call : Call c) :
    call.begin.flushing = false ∧ call.begin.compacting = false ∧ call.begin.built = none ∧
      call.begin.removals = [] := by
  cases call <;> exact ⟨rfl, rfl, rfl, rfl⟩

/-- **Calls that have not begun** keep their lanes. -/
theorem lanes_start {cfg : Config} {e : Engine} {s : Lsm Bytes Bytes} {rs : List WalRecord}
    (h : e.Inv cfg s rs) {calls : List (Call cfg.cipher)} (hclean : ∀ c ∈ calls, c.Clean) :
    Lanes cfg e (calls.map Call.begin) s [] rs := by
  refine ⟨⟨h.isOpen, h.rep, h.counts, h.bound, by rw [Lsm.plus_nil]; exact h.logged,
    by rw [Lsm.plus_nil]; exact h.sound, h.keys, h.namedL0, h.namedL1⟩, ?_, ?_,
    fun hne => absurd rfl hne⟩
  · intro p hp
    obtain ⟨c, hc, rfl⟩ := List.mem_map.mp hp
    have hio := hclean c hc
    cases c with
    | set io key value => exact Or.inl ⟨rfl, hio⟩
    | delete io key => exact Or.inr rfl
    | flush io => exact hio
    | compact io => exact hio
    | get key => trivial
  · rw [List.pairwise_map]
    refine List.pairwise_iff_forall_sublist.mpr fun {c _} _ => ?_
    obtain ⟨hf, hc, hb, hr⟩ := c.begin_idle
    exact apart_of_idle hf hc hb hr

/-! ## Every record is on its way or in front -/

/-- The record is still to be stored, or its key answers with one at least
as new. -/
def Covered {c : Cipher} (ps : List (Phase c)) (t : Lsm Bytes Bytes) (r : WalRecord) : Prop :=
  (∃ p ∈ ps, ∃ x ∈ p.unstored, x.1 = r.key ∧ r.seq ≤ x.2) ∨
    ∃ v, search t.path r.key = some v ∧ r.seq ≤ v.seq

/-- The phase belongs to no `Delete`. -/
def Phase.Sets {c : Cipher} : Phase c → Prop
  | .appending _ op _ _ => op = .kSet
  | .storing _ op _ _ _ => op = .kSet
  | _ => True

theorem Phase.sets_step {cfg : Config} {e : Engine} {p : Phase cfg.cipher} (h : p.Sets) :
    (p.step cfg e).2.Sets := by
  cases p with
  | appending io op key value =>
      simp only [Phase.step]
      rcases e.logWrite cfg io op key value with ⟨_ | seq, e₁⟩
      · trivial
      · cases Engine.replicate cfg io.calls with
        | error err => trivial
        | ok n => exact h
  | removing io ret i ps => cases ps <;> trivial
  | _ =>
      simp only [Phase.step]
      repeat' split
      all_goals trivial

/-- Sets only, and no record is lost. -/
structure Accounted {c : Cipher} (ps : List (Phase c)) (t : Lsm Bytes Bytes)
    (rs : List WalRecord) : Prop where
  phases : ∀ p ∈ ps, p.Sets
  records : ∀ r ∈ rs, r.op = .kSet
  covered : ∀ r ∈ rs, Covered ps t r

namespace Accounted

variable {cfg : Config} {e : Engine} {s s' : Lsm Bytes Bytes}
  {pend pend' : List (Table Bytes Bytes)} {rs : List WalRecord}
  {p : Phase cfg.cipher} {others : List (Phase cfg.cipher)}

theorem perm {ps ps' : List (Phase cfg.cipher)} {t : Lsm Bytes Bytes} (h : Accounted ps t rs)
    (hperm : ps.Perm ps') : Accounted ps' t rs := by
  refine ⟨fun p hp => h.phases p (hperm.mem_iff.mpr hp), h.records, fun r hr => ?_⟩
  rcases h.covered r hr with ⟨p, hp, hx⟩ | hv
  · exact Or.inl ⟨p, hperm.mem_iff.mp hp, hx⟩
  · exact Or.inr hv

/-- All versions are live. -/
theorem live (hl : Shared cfg e s pend rs) (h : ∀ r ∈ rs, r.op = .kSet) {k : Bytes}
    {v : MemValue} (hv : search (s.plus pend).path k = some v) : v.tombstone = false := by
  have hmem : v ∈ hits (s.plus pend).path k := by
    rw [search_eq_head] at hv
    exact List.mem_of_mem_head? hv
  obtain ⟨r, hr, -, hrv⟩ := hl.logged k v hmem
  obtain ⟨op, seq, ts, key, value⟩ := r
  obtain rfl : op = .kSet := h _ hr
  obtain rfl := Option.some.inj hrv
  rfl

/-- A step that neither logs nor stores. -/
theorem quiet (hl : Lanes cfg e (p :: others) s pend rs)
    (h : Accounted (p :: others) (s.plus pend) rs) {p' : Phase cfg.cipher}
    (hp : p.unstored = none) (hp' : p'.Sets) (hkeeps : Keeps (s.plus pend) (s'.plus pend')) :
    Accounted (p' :: others) (s'.plus pend') rs := by
  refine ⟨?_, h.records, fun r hr => ?_⟩
  · intro q hq
    rcases List.mem_cons.mp hq with rfl | hq
    · exact hp'
    · exact h.phases q (List.mem_cons_of_mem _ hq)
  · rcases h.covered r hr with ⟨q, hq, x, hx, hrx⟩ | ⟨v, hv, hle⟩
    · rcases List.mem_cons.mp hq with rfl | hq
      · rw [hp] at hx; cases hx
      · exact Or.inl ⟨q, List.mem_cons_of_mem _ hq, x, hx, hrx⟩
    · exact Or.inr ⟨v, hkeeps _ v hv (live hl.shared h.records hv), hle⟩

theorem appending (hcfg : cfg.Standalone) {io : WriteIo cfg.cipher} {op : WalOp}
    {key value : Bytes} (hl : Lanes cfg e (.appending io op key value :: others) s pend rs)
    (h : Accounted (.appending io op key value :: others) (s.plus pend) rs)
    (hkeeps : Keeps (s.plus pend) (s'.plus pend')) :
    Accounted (((Phase.appending io op key value).step cfg e).2 :: others) (s'.plus pend')
      (rs ++ (Phase.appending io op key value).appended cfg e) := by
  have hop : op = .kSet := h.phases _ List.mem_cons_self
  simp only [Phase.step, Phase.appended, Engine.appended]
  rcases e.logWrite cfg io op key value with ⟨res, e₁⟩
  cases res with
  | error err =>
      rw [List.append_nil]
      exact quiet hl h rfl trivial hkeeps
  | ok seq =>
      have halone : Engine.replicate cfg io.calls = .ok 0 := by
        rw [Engine.replicate, hcfg.alone]
        rfl
      simp only [halone]
      have hrest : Accounted (.storing io.flush op key value seq :: others) (s'.plus pend') rs :=
        quiet hl h rfl hop hkeeps
      refine ⟨hrest.phases, ?_, ?_⟩
      · intro r hr
        rcases List.mem_append.mp hr with hr | hr
        · exact h.records r hr
        · rw [List.mem_singleton.mp hr]
          exact hop
      · intro r hr
        rcases List.mem_append.mp hr with hr | hr
        · exact hrest.covered r hr
        · rw [List.mem_singleton.mp hr]
          exact Or.inl ⟨_, List.mem_cons_self, (key, seq), rfl, rfl, Nat.le_refl _⟩

theorem storing {io : FlushIo cfg.cipher} {op : WalOp} {key value : Bytes} {seq : Nat}
    (hl : Lanes cfg e (.storing io op key value seq :: others) s pend rs)
    (h : Accounted (.storing io op key value seq :: others) (s.plus pend) rs)
    {p' : Phase cfg.cipher} (hp' : p'.Sets)
    (hwrite : s'.plus pend' = (s.plus pend).write key (storedVersion op value seq)) :
    Accounted (p' :: others) (s'.plus pend') rs := by
  obtain ⟨-, -, -, hlt⟩ := hl.ok _ List.mem_cons_self
  rw [hwrite]
  refine ⟨?_, h.records, fun r hr => ?_⟩
  · intro q hq
    rcases List.mem_cons.mp hq with rfl | hq
    · exact hp'
    · exact h.phases q (List.mem_cons_of_mem _ hq)
  by_cases hk : r.key = key
  · -- the stored version is the newest of its key
    have hnew : search ((s.plus pend).write key (storedVersion op value seq)).path r.key
        = some (storedVersion op value seq) := by
      rw [Lsm.search_write, if_pos hk]
    rcases h.covered r hr with ⟨q, hq, x, hx, hxk, hrx⟩ | ⟨v, hv, hle⟩
    · rcases List.mem_cons.mp hq with rfl | hq
      · obtain rfl := Option.some.inj hx
        exact Or.inr ⟨_, hnew, by rw [seq_storedVersion]; exact hrx⟩
      · exact Or.inl ⟨q, List.mem_cons_of_mem _ hq, x, hx, hxk, hrx⟩
    · refine Or.inr ⟨_, hnew, ?_⟩
      have hmem : v ∈ hits (s.plus pend).path key := by
        rw [search_eq_head, hk] at hv
        exact List.mem_of_mem_head? hv
      rw [seq_storedVersion]
      exact Nat.le_of_lt (Nat.lt_of_le_of_lt hle (hlt v hmem))
  · rcases h.covered r hr with ⟨q, hq, x, hx, hxk, hrx⟩ | ⟨v, hv, hle⟩
    · rcases List.mem_cons.mp hq with rfl | hq
      · obtain rfl := Option.some.inj hx
        exact absurd hxk.symm hk
      · exact Or.inl ⟨q, List.mem_cons_of_mem _ hq, x, hx, hxk, hrx⟩
    · exact Or.inr ⟨v, by rw [Lsm.search_write, if_neg hk]; exact hv, hle⟩

/-- **A polite step loses no record.** -/
theorem step (hcfg : cfg.Standalone) (hl : Lanes cfg e (p :: others) s pend rs)
    (h : Accounted (p :: others) (s.plus pend) rs)
    (hmoves : Lanes.Moves p (s.plus pend) (s'.plus pend')) :
    Accounted ((p.step cfg e).2 :: others) (s'.plus pend') (rs ++ p.appended cfg e) := by
  have hsets : (p.step cfg e).2.Sets := Phase.sets_step (h.phases p List.mem_cons_self)
  have hrest : p.unstored = none → p.appended cfg e = [] →
      Keeps (s.plus pend) (s'.plus pend') →
      Accounted ((p.step cfg e).2 :: others) (s'.plus pend') (rs ++ p.appended cfg e) := by
    intro hnone hnil hkeeps
    rw [hnil, List.append_nil]
    exact quiet hl h hnone hsets hkeeps
  cases p with
  | appending io op key value => exact appending hcfg hl h hmoves
  | storing io op key value seq =>
      have hnil : (Phase.storing io op key value seq).appended cfg e = [] := rfl
      rw [hnil, List.append_nil]
      exact storing hl h hsets hmoves
  | _ => exact hrest rfl rfl hmoves

/-- **No polite interleaving loses a record.** -/
theorem run (hcfg : cfg.Standalone) (is : List Nat) :
    ∀ {t : Threads cfg} {s : Lsm Bytes Bytes} {pend : List (Table Bytes Bytes)}
      {rs : List WalRecord}, Lanes cfg t.engine t.phases s pend rs →
      Accounted t.phases (s.plus pend) rs → t.PoliteRun is →
      ∃ s' pend', Lanes cfg (t.run is).engine (t.run is).phases s' pend'
          (rs ++ t.records is) ∧
        Accounted (t.run is).phases (s'.plus pend') (rs ++ t.records is) := by
  induction is with
  | nil =>
      intro t s pend rs hl h _
      rw [Threads.records, List.append_nil]
      exact ⟨s, pend, hl, h⟩
  | cons i is ih =>
      intro t s pend rs hl h hpol
      rw [Threads.run, Threads.records, ← List.append_assoc]
      cases hi : t.phases[i]? with
      | none =>
          have htick := Threads.tick_of_none hi
          rw [Threads.appended, hi, List.append_nil, htick]
          exact ih hl h (htick ▸ hpol.2)
      | some p =>
          obtain ⟨s', pend', hl', hmoves⟩ := hl.tick hcfg.toReliable hi hpol.1
          have hperm := Threads.perm_of_get hi
          have h' := (step hcfg (hl.perm hperm) (h.perm hperm) hmoves).perm
            (Threads.tick_perm hi).2.symm
          refine ih hl' ?_ hpol.2
          rw [Threads.appended, hi]
          exact h'

end Accounted

/-! ## All calls have returned -/

theorem Phase.idle_of_done {c : Cipher} {p : Phase c} (h : p.done = true) :
    p.unstored = none ∧ p.flushing = false := by
  cases p with
  | returned res => exact ⟨rfl, rfl⟩
  | answered res => exact ⟨rfl, rfl⟩
  | _ => cases h

/-- Nothing is on its way any more. -/
theorem Lanes.settled {cfg : Config} {e : Engine} {ps : List (Phase cfg.cipher)}
    {s : Lsm Bytes Bytes} {pend : List (Table Bytes Bytes)} {rs : List WalRecord}
    (h : Lanes cfg e ps s pend rs) (hdone : ∀ p ∈ ps, p.done = true) : pend = [] := by
  by_contra hne
  obtain ⟨p, hp, hf⟩ := h.waiting hne
  rw [(Phase.idle_of_done (hdone p hp)).2] at hf
  cases hf

/-- The key of the largest record answers with that record. -/
theorem Accounted.search_eq {cfg : Config} {e : Engine} {ps : List (Phase cfg.cipher)}
    {s : Lsm Bytes Bytes} {rs : List WalRecord} (hl : Lanes cfg e ps s [] rs)
    (h : Accounted ps s rs) (hdone : ∀ p ∈ ps, p.done = true) {r : WalRecord} (hr : r ∈ rs)
    (hmax : ∀ r' ∈ rs, r'.key = r.key → r'.seq ≤ r.seq) :
    search s.path r.key = some ⟨r.value, r.seq, false⟩ := by
  rcases h.covered r hr with ⟨p, hp, x, hx, -⟩ | ⟨v, hv, hle⟩
  · rw [(Phase.idle_of_done (hdone p hp)).1] at hx
    cases hx
  have hmem : v ∈ hits (s.plus []).path r.key := by
    rw [Lsm.plus_nil]
    rw [search_eq_head] at hv
    exact List.mem_of_mem_head? hv
  -- the version met is a record of the log, not newer than the largest one
  obtain ⟨r', hr', hkey, hv'⟩ := hl.shared.logged r.key v hmem
  have hseq : v.seq = r'.seq := (WalRecord.version?_spec hv').1
  have hsame : r' = r := hl.shared.counts.seq_inj hr' hr
    (Nat.le_antisymm (hmax r' hr' hkey) (hseq ▸ hle))
  subst hsame
  obtain ⟨op, seq, ts, key, value⟩ := r'
  obtain rfl : op = .kSet := h.records _ hr
  rw [hv, ← hv']
  rfl

/-- **Polite writers agree with the log.** On an engine opened on an empty
directory, with replication off and no I/O failure, let any number of calls,
none of them a `Delete`, be interleaved in any way that is polite. When all
of them have returned, not with an error, `Get` of a key answers with the
key's largest record, and `NotFound` if the log has none. -/
theorem concurrent_get_latest {cfg : Config} (hcfg : cfg.Standalone) {io : OpenIo}
    {e : Engine} (hopen : (Engine.fresh cfg).open cfg io = (.ok 0, e))
    {calls : List (Call cfg.cipher)} (hclean : ∀ c ∈ calls, c.Clean)
    (hsets : ∀ c ∈ calls, c.deletes = false) {schedule : List Nat}
    (hpolite : (Threads.start e calls).PoliteRun schedule)
    (hdone : ∀ p ∈ ((Threads.start e calls).run schedule).phases, p.done = true)
    {k : Bytes} (hk : k ≠ []) :
    (∀ r ∈ (Threads.start e calls).records schedule, r.key = k →
      (∀ r' ∈ (Threads.start e calls).records schedule, r'.key = k → r'.seq ≤ r.seq) →
      ((Threads.start e calls).run schedule).engine.get cfg k = .ok r.value) ∧
    ((∀ r ∈ (Threads.start e calls).records schedule, r.key ≠ k) →
      ∃ msg, ((Threads.start e calls).run schedule).engine.get cfg k =
        .error (Status.notFound msg)) := by
  have hstart : Accounted (Threads.start e calls).phases
      ((⟨SortedMap.empty, [], []⟩ : Lsm Bytes Bytes).plus []) [] := by
    refine ⟨?_, fun _ hr => absurd hr List.not_mem_nil, fun _ hr => absurd hr List.not_mem_nil⟩
    intro p hp
    obtain ⟨c, hc, rfl⟩ := List.mem_map.mp hp
    have hset := hsets c hc
    cases c with
    | set io key value => rfl
    | delete io key => cases hset
    | _ => trivial
  obtain ⟨s, pend, hl, h⟩ :=
    Accounted.run hcfg schedule (lanes_start (inv_of_open hopen) hclean) hstart hpolite
  obtain rfl : pend = [] := hl.settled hdone
  rw [Lsm.plus_nil] at h
  rw [List.nil_append] at hl h
  have hget := hl.shared.rep.get_eq hl.shared.isOpen hk
  refine ⟨?_, ?_⟩
  · rintro r hr rfl hmax
    rw [hget, h.search_eq hl hdone hr hmax]
    rfl
  · intro hnone
    rw [hget]
    cases hv : search s.path k with
    | none => exact ⟨_, rfl⟩
    | some v =>
        have hmem : v ∈ hits (s.plus []).path k := by
          rw [Lsm.plus_nil]
          rw [search_eq_head] at hv
          exact List.mem_of_mem_head? hv
        obtain ⟨r, hr, hkey, -⟩ := hl.shared.logged k v hmem
        exact absurd hkey (hnone r hr)

namespace Small

variable (budget : Nat)

def setCall (k v : UInt8) : Call (smallConfig budget).cipher :=
  .set (.quiet (0 : Nat)) [k] [v]

def flushCall : Call (smallConfig budget).cipher := .flush (.quiet (0 : Nat))

end Small

/-- Two sets of one key, and a flush. -/
def inLogOrder : Threads (smallConfig 4096) :=
  Threads.start (Small.opened 4096)
    [Small.setCall 4096 97 1, Small.setCall 4096 97 2, Small.flushCall 4096]

theorem inLogOrder_latest :
    (inLogOrder.records [0, 1, 0, 2, 1, 2, 0, 1, 2, 2]).length = 2 ∧
    ((inLogOrder.run [0, 1, 0, 2, 1, 2, 0, 1, 2, 2]).engine.get (smallConfig 4096) [97])
      = .ok [2] := by
  refine ⟨by decide +kernel, ?_⟩
  refine (concurrent_get_latest (smallConfig_standalone 4096)
    (Small.opened_ok 4096 (by decide +kernel)) ?_ (by decide +kernel) (by decide +kernel)
    (by decide +kernel) (by decide)).1 ⟨.kSet, 2, 0, [97], [2]⟩ (by decide +kernel) rfl
    (by decide +kernel)
  intro c hc
  simp only [List.mem_cons, List.not_mem_nil, or_false] at hc
  rcases hc with rfl | rfl | rfl
  · exact FlushIo.quiet_clean _
  · exact FlushIo.quiet_clean _
  · exact FlushIo.quiet_clean _

/-- Two sets of one key. -/
def sameKey : Threads (smallConfig 4096) :=
  Threads.start (Small.opened 4096) [Small.setCall 4096 97 1, Small.setCall 4096 97 2]

/-- Five sets of different keys, each with a flush behind it. -/
def fiveKeys : Threads (smallConfig 1) :=
  Threads.start (Small.opened 1) [Small.setCall 1 97 1, Small.setCall 1 98 1,
    Small.setCall 1 99 1, Small.setCall 1 100 1, Small.setCall 1 101 1]

/-- Four calls run until the fourth has merged the four tables. The fifth
installs its table, and the fourth empties level 0 with it. -/
def lostTable : List Nat :=
  List.replicate 7 0 ++ List.replicate 7 1 ++ List.replicate 7 2 ++ List.replicate 8 3 ++
    List.replicate 6 4 ++ List.replicate 6 3 ++ [4]

/-- **Writers may disagree with the log**, with every call returning `Ok`.
The records of one key are stored in the other order, and the older value
stays. Or a table is installed while a compaction is under way, and its key
is gone. -/
theorem writers_disagree :
    (((sameKey.run [0, 1, 1, 1, 0, 0]).phases.all Phase.done) = true ∧
      (sameKey.records [0, 1, 1, 1, 0, 0]).map (fun r => (r.key, r.seq, r.value))
        = [([97], 1, [1]), ([97], 2, [2])] ∧
      (sameKey.run [0, 1, 1, 1, 0, 0]).engine.get (smallConfig 4096) [97] = .ok [1]) ∧
    (((fiveKeys.run lostTable).phases.all Phase.done) = true ∧
      ((fiveKeys.records lostTable).map WalRecord.key).getLast? = some [101] ∧
      (fiveKeys.run lostTable).engine.get (smallConfig 1) [101]
        = .error (Status.notFound "key not found")) := by
  decide +kernel

end VaultKV
