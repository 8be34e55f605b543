import VaultKV.Engine.Scan
import VaultKV.Engine.Writers

/-!
# Engine — reads beside a flush

`Get` looks into the memtable in one step and into the tables in another.
A flush takes the entries out of the memtable before it builds the table
that will hold them, so there is a GAP between `DrainSorted` and the
installation in which a key is in neither place. A reader whose second step
falls into the gap answers with what older tables say; every other reader
gets the acknowledged value, wherever its two steps fall among those of the
flush and of the compaction behind it (`get_during_flush_iff`).
-/

namespace VaultKV

open Lib

/-! ## The value a caller was told -/

/-- The key a call is about to write. -/
def Phase.key? {c : Cipher} : Phase c → Option Bytes
  | .appending _ _ key _ => some key
  | .storing _ _ key _ _ => some key
  | _ => none

theorem Phase.key?_step {cfg : Config} {e : Engine} {p : Phase cfg.cipher} {k : Bytes}
    (h : p.key? ≠ some k) : (p.step cfg e).2.key? ≠ some k := by
  cases p with
  | appending io op key value =>
      simp only [Phase.step]
      rcases e.logWrite cfg io op key value with ⟨_ | seq, e₁⟩
      · exact (Option.some_ne_none k).symm
      · cases Engine.replicate cfg io.calls with
        | error err => exact (Option.some_ne_none k).symm
        | ok n => exact h
  | removing io ret i ps => cases ps <;> exact (Option.some_ne_none k).symm
  | _ =>
      simp only [Phase.step]
      repeat' split
      all_goals exact (Option.some_ne_none k).symm

theorem Lsm.live_of_get {s : Lsm Bytes Bytes} {k v : Bytes} (h : s.get k = some v) :
    ∃ ver, search s.path k = some ver ∧ ver.tombstone = false ∧ ver.value = v := by
  rw [Lsm.get] at h
  cases hs : search s.path k with
  | none => rw [hs] at h; cases h
  | some ver =>
      rw [hs, Option.bind_some, Version.answer] at h
      cases ht : ver.tombstone with
      | true => rw [ht] at h; cases h
      | false =>
          rw [ht] at h
          exact ⟨ver, rfl, ht, Option.some.inj h⟩

theorem Keeps.get {t t' : Lsm Bytes Bytes} (h : Keeps t t') {k v : Bytes}
    (hget : t.get k = some v) : t'.get k = some v := by
  obtain ⟨ver, hs, ht, rfl⟩ := Lsm.live_of_get hget
  rw [Lsm.get, h k ver hs ht, Option.bind_some, Version.answer, ht]
  rfl

/-- A step that writes another key, or nothing, keeps the answer. -/
theorem Lanes.Moves.get {c : Cipher} {p : Phase c} {t t' : Lsm Bytes Bytes}
    (h : Lanes.Moves p t t') {k v : Bytes} (hk : p.key? ≠ some k) (hget : t.get k = some v) :
    t'.get k = some v := by
  cases p with
  | storing io op key value seq =>
      have h : t' = t.write key (storedVersion op value seq) := h
      rw [h, Lsm.get_write, if_neg (fun heq => hk (congrArg some heq.symm))]
      exact hget
  | _ => exact Keeps.get h hget

/-! ## Calls that run alone -/

theorem Reaches.invariant {cfg : Config} {P : Engine → Phase cfg.cipher → Prop}
    (hstep : ∀ e p, P e p → P (p.step cfg e).1 (p.step cfg e).2)
    {x y : Engine × Phase cfg.cipher} (h : Reaches cfg x y) (hx : P x.1 x.2) : P y.1 y.2 := by
  obtain ⟨n, rfl⟩ := h
  induction n generalizing x with
  | zero => exact hx
  | succ n ih =>
      rw [Function.iterate_succ_apply]
      exact ih (hstep _ _ hx)

theorem Phase.polite_nil {c : Cipher} (e : Engine) (p : Phase c) : p.Polite e [] := by
  cases p with
  | storing io op key value seq => exact fun _ hq => absurd hq List.not_mem_nil
  | draining io ret => exact fun _ _ hq => absurd hq List.not_mem_nil
  | installing io ret records rd => exact fun _ hq => absurd hq List.not_mem_nil
  | listing io ret => exact fun _ _ hq => absurd hq List.not_mem_nil
  | _ => trivial

section Alone

variable {cfg : Config} {e : Engine} {s : Lsm Bytes Bytes} {rs : List WalRecord}
  {k v : Bytes}

theorem lanes_alone (h : e.Inv cfg s rs) {call : Call cfg.cipher} (hclean : call.Clean) :
    Lanes cfg e [call.begin] s [] rs := by
  have hall : ∀ c ∈ [call], c.Clean := fun c hc => by
    rw [List.mem_singleton.mp hc]
    exact hclean
  exact lanes_start h hall

/-- A call that has returned left the engine in order. -/
theorem Lanes.inv {pend : List (Table Bytes Bytes)} {res : Res Nat}
    (h : Lanes cfg e [.returned res] s pend rs) : e.Inv cfg s rs ∧ pend = [] := by
  have hpend : pend = [] := by
    by_contra hne
    obtain ⟨p, hp, hf⟩ := h.waiting hne
    rw [List.mem_singleton.mp hp] at hf
    cases hf
  subst hpend
  have hlogged := h.shared.logged
  have hsound := h.shared.sound
  rw [Lsm.plus_nil] at hlogged hsound
  exact ⟨⟨h.shared.isOpen, h.shared.rep, h.shared.counts, h.shared.bound, hlogged, hsound,
    h.shared.keys, h.shared.namedL0, h.shared.namedL1⟩, rfl⟩

/-- The call keeps what a caller was told about the key. -/
def KeepsTelling (cfg : Config) (k v : Bytes) (e : Engine) (p : Phase cfg.cipher) : Prop :=
  ∃ s pend rs, Lanes cfg e [p] s pend rs ∧ p.key? ≠ some k ∧ (s.plus pend).get k = some v

theorem KeepsTelling.step (hcfg : cfg.Reliable) {p : Phase cfg.cipher}
    (h : KeepsTelling cfg k v e p) :
    KeepsTelling cfg k v (p.step cfg e).1 (p.step cfg e).2 := by
  obtain ⟨s, pend, rs, hl, hk, hget⟩ := h
  obtain ⟨s', pend', hl', hmoves⟩ := hl.step hcfg (p.polite_nil e)
  exact ⟨s', pend', _, hl', Phase.key?_step hk, hmoves.get hk hget⟩

/-- `Set(k, v)` is on its way, has failed, or has told the caller. -/
def Telling (cfg : Config) (k v : Bytes) (e : Engine) (p : Phase cfg.cipher) : Prop :=
  (∃ s pend rs, Lanes cfg e [p] s pend rs ∧
    ((∃ io, p = .appending io .kSet k v) ∨ ∃ io seq, p = .storing io .kSet k v seq)) ∨
  (∃ err, p = .returned (.error err)) ∨ KeepsTelling cfg k v e p

theorem Telling.step (hcfg : cfg.Reliable) {p : Phase cfg.cipher}
    (h : Telling cfg k v e p) : Telling cfg k v (p.step cfg e).1 (p.step cfg e).2 := by
  rcases h with ⟨s, pend, rs, hl, hp⟩ | ⟨err, rfl⟩ | h
  · obtain ⟨s', pend', hl', hmoves⟩ := hl.step hcfg (p.polite_nil e)
    rcases hp with ⟨io, rfl⟩ | ⟨io, seq, rfl⟩
    · revert hl'
      simp only [Phase.step]
      rcases e.logWrite cfg io .kSet k v with ⟨_ | seq, e₁⟩
      · exact fun _ => Or.inr (Or.inl ⟨_, rfl⟩)
      · cases Engine.replicate cfg io.calls with
        | error err => exact fun _ => Or.inr (Or.inl ⟨_, rfl⟩)
        | ok n => exact fun hl' => Or.inl ⟨s', pend', _, hl', Or.inr ⟨io.flush, seq, rfl⟩⟩
    · obtain ⟨-, hkey, -⟩ := hl.ok _ List.mem_cons_self
      have hmoves : s'.plus pend' = (s.plus pend).write k (storedVersion .kSet v seq) := hmoves
      refine Or.inr (Or.inr ⟨s', pend', _, hl', ?_, ?_⟩)
      · simp only [Phase.step, MemTable.set_of_ne_nil hkey]
        exact (Option.some_ne_none k).symm
      · rw [hmoves, Lsm.get_write, if_pos rfl]
        rfl
  · exact Or.inr (Or.inl ⟨err, rfl⟩)
  · exact Or.inr (Or.inr (h.step hcfg))

/-- **An acknowledged `Set`** is what the tree answers. -/
theorem Engine.Inv.get_set (hcfg : cfg.Reliable) (h : e.Inv cfg s rs)
    {io : WriteIo cfg.cipher} (hio : io.flush.Clean) {n : Nat}
    (hset : (e.set cfg io k v).1 = .ok n) :
    ∃ s' rs', (e.set cfg io k v).2.Inv cfg s' rs' ∧ s'.get k = some v := by
  have hstart : Lanes cfg e [(Call.set io k v).begin] s [] rs := lanes_alone h hio
  have hend := (set_alone io k v e).invariant (P := Telling cfg k v)
    (fun _ _ hp => hp.step hcfg) (Or.inl ⟨s, [], rs, hstart, Or.inl ⟨io, rfl⟩⟩)
  rw [hset] at hend
  rcases hend with ⟨_, _, _, -, ⟨io', hp⟩ | ⟨io', seq, hp⟩⟩ | ⟨err, hp⟩ | ⟨s', pend, rs', hl, -, hget⟩
  · cases hp
  · cases hp
  · cases hp
  · obtain ⟨hinv, rfl⟩ := hl.inv
    rw [Lsm.plus_nil] at hget
    exact ⟨s', rs', hinv, hget⟩

/-- The call of an operation. -/
def Op.call {c : Cipher} : Op c → Call c
  | .set io key value => .set io key value
  | .delete io key => .delete io key
  | .flush io => .flush io
  | .compact io => .compact io

theorem Op.alone (op : Op cfg.cipher) (e : Engine) :
    ∃ res, Reaches cfg (e, op.call.begin) ((e.step cfg op).2, .returned res) := by
  cases op with
  | set io key value => exact ⟨_, set_alone io key value e⟩
  | delete io key => exact ⟨_, delete_alone io key e⟩
  | flush io => exact ⟨_, flush_alone io e⟩
  | compact io => exact ⟨_, compact_alone io e⟩

/-- **Operations on other keys** do not change what the tree answers. -/
theorem Engine.Inv.get_run (hcfg : cfg.Reliable) (ops : List (Op cfg.cipher)) :
    ∀ {e : Engine} {s : Lsm Bytes Bytes} {rs : List WalRecord}, e.Inv cfg s rs →
      s.get k = some v → (∀ op ∈ ops, op.Clean ∧ op.call.key? ≠ some k) →
      ∃ s' rs', (e.run cfg ops).Inv cfg s' rs' ∧ s'.get k = some v := by
  induction ops with
  | nil => intro e s rs h hget _; exact ⟨s, rs, h, hget⟩
  | cons op ops ih =>
      intro e s rs h hget hops
      obtain ⟨hclean, hkey⟩ := hops op List.mem_cons_self
      have hstart : Lanes cfg e [op.call.begin] s [] rs :=
        lanes_alone h (by cases op <;> exact hclean)
      have hnot : op.call.begin.key? ≠ some k := by
        cases op <;> exact hkey
      obtain ⟨res, hreach⟩ := op.alone e
      obtain ⟨s', pend, rs', hl, -, hget'⟩ := hreach.invariant (P := KeepsTelling cfg k v)
        (fun _ _ hp => hp.step hcfg) ⟨s, [], rs, hstart, hnot, by rwa [Lsm.plus_nil]⟩
      obtain ⟨hinv, rfl⟩ := hl.inv
      rw [Lsm.plus_nil] at hget'
      exact ih hinv hget' fun op' hop' => hops op' (List.mem_cons_of_mem _ hop')

end Alone

/-! ## The gap -/

namespace Phase

variable {c : Cipher}

/-- A call of `Get`. -/
def reads : Phase c → Bool
  | .reading _ => true
  | .searching _ => true
  | .answered _ => true
  | _ => false

/-- The reader did not find `k` in the memtable and turns to the tables. -/
def searches (k : Bytes) : Phase c → Bool
  | .searching key => key == k
  | _ => false

def answer? : Phase c → Option (Res Bytes)
  | .answered res => some res
  | _ => none

/-- `k` was drained by this call, and its table is not installed yet. -/
def holds (k : Bytes) : Phase c → Bool
  | .building _ _ records => records.any fun x => x.1 == k
  | .installing _ _ records _ => records.any fun x => x.1 == k
  | _ => false

/-- The call has installed nothing yet. -/
def early : Phase c → Bool
  | .appending _ _ _ _ => true
  | .storing _ _ _ _ _ => true
  | .checking _ _ => true
  | .draining _ _ => true
  | .building _ _ _ => true
  | .installing _ _ _ _ => true
  | _ => false

theorem early_of_holds {k : Bytes} {p : Phase c} (h : p.holds k = true) : p.early = true := by
  cases p with
  | building io ret records => rfl
  | installing io ret records rd => rfl
  | _ => cases h

/-- A reader is in nobody's way. -/
theorem harmless_of_reads {p : Phase c} (h : p.reads = true) :
    p.unstored = none ∧ p.flushing = false ∧ p.compacting = false ∧ p.early = false ∧
      p.key? = none := by
  cases p with
  | reading key => exact ⟨rfl, rfl, rfl, rfl, rfl⟩
  | searching key => exact ⟨rfl, rfl, rfl, rfl, rfl⟩
  | answered res => exact ⟨rfl, rfl, rfl, rfl, rfl⟩
  | _ => cases h

/-- A reader's step leaves the engine alone. -/
theorem reads_step {cfg : Config} {e : Engine} {p : Phase cfg.cipher} (h : p.reads = true) :
    (p.step cfg e).1 = e ∧ (p.step cfg e).2.reads = true := by
  cases p with
  | reading key =>
      simp only [Phase.step]
      repeat' split
      all_goals exact ⟨rfl, rfl⟩
  | searching key => exact ⟨rfl, rfl⟩
  | answered res => exact ⟨rfl, rfl⟩
  | _ => cases h

/-- Beside readers every step is polite, and so is every step of a reader. -/
theorem polite_of_reads {e : Engine} {p : Phase c} {others : List (Phase c)}
    (h : p.reads = true ∨ ∀ q ∈ others, q.reads = true) : p.Polite e others := by
  cases p with
  | storing io op key value seq =>
      intro q hq x hx
      rw [(harmless_of_reads (h.resolve_left Bool.false_ne_true q hq)).1] at hx
      cases hx
  | draining io ret =>
      exact fun _ q hq => (harmless_of_reads (h.resolve_left Bool.false_ne_true q hq)).2.1
  | installing io ret records rd =>
      exact fun q hq => (harmless_of_reads (h.resolve_left Bool.false_ne_true q hq)).2.2.1
  | listing io ret =>
      exact fun _ q hq => (harmless_of_reads (h.resolve_left Bool.false_ne_true q hq)).2.2.1
  | _ => trivial

/-- A key that is not in the memtable does not come back while other keys
are written. -/
theorem find_none_step {cfg : Config} {e : Engine} {p : Phase cfg.cipher} {k : Bytes}
    (hk : p.key? ≠ some k) (h : e.memtable.table.find k = none) :
    (p.step cfg e).1.memtable.table.find k = none := by
  cases p with
  | appending io op key value =>
      simp only [Phase.step]
      have hmem : (e.logWrite cfg io op key value).2.memtable = e.memtable := by
        unfold Engine.logWrite
        repeat' split
        all_goals rfl
      rcases hlog : e.logWrite cfg io op key value with ⟨_ | seq, e₁⟩
      · rw [hlog] at hmem
        exact hmem ▸ h
      · rw [hlog] at hmem
        cases Engine.replicate cfg io.calls with
        | error err => exact hmem ▸ h
        | ok n => exact hmem ▸ h
  | storing io op key value seq =>
      have hne : k ≠ key := fun heq => hk (congrArg some heq.symm)
      have hput : ∀ mv, (e.memtable.put key mv).table.find k = none := fun mv => by
        rw [MemTable.table_put, SortedMap.find_insert, if_neg hne]
        exact h
      by_cases hkey : key = []
      · cases op <;> simp only [Phase.step, MemTable.set, MemTable.delete, if_pos hkey] <;>
          exact h
      · cases op <;> simp only [Phase.step, MemTable.set_of_ne_nil hkey,
          MemTable.delete_of_ne_nil hkey] <;> exact hput _
  | draining io ret =>
      simp only [Phase.step]
      repeat' split
      · exact h
      · exact SortedMap.find_empty k
      · exact SortedMap.find_empty k
  | removing io ret i ps => cases ps <;> exact h
  | _ =>
      simp only [Phase.step]
      repeat' split
      all_goals exact h

/-- A reader turns to the tables because the memtable has nothing. -/
theorem find_none_of_searches {cfg : Config} {e : Engine} {p : Phase cfg.cipher} {k : Bytes}
    (h : (p.step cfg e).2.searches k = true) :
    (p.step cfg e).1.memtable.table.find k = none := by
  revert h
  cases p with
  | reading key =>
      simp only [Phase.step, MemTable.get]
      by_cases hopen : e.isOpen = false
      · rw [if_pos hopen]; intro h; cases h
      rw [if_neg hopen]
      by_cases hkey : key = []
      · rw [if_pos hkey]; intro h; cases h
      rw [if_neg hkey]
      cases hf : e.memtable.table.find key with
      | some v => intro h; cases h
      | none =>
          intro h
          have h : (key == k) = true := h
          rw [← beq_iff_eq.mp h]
          exact hf
  | removing io ret i ps => cases ps <;> (intro h; cases h)
  | _ =>
      simp only [Phase.step]
      repeat' split
      all_goals (intro h; cases h)

/-- Until a call installs its table, the tables answer as before. -/
theorem early_step {cfg : Config} {e : Engine} {s : Lsm Bytes Bytes}
    {pend : List (Table Bytes Bytes)} {rs : List WalRecord} (hs : Shared cfg e s pend rs)
    {p : Phase cfg.cipher} (k : Bytes) (h : (p.step cfg e).2.early = true) :
    p.early = true ∧ (p.step cfg e).1.searchTables cfg k = e.searchTables cfg k := by
  revert h
  cases p with
  | appending io op key value =>
      simp only [Phase.step]
      rcases hlog : e.logWrite cfg io op key value with ⟨_ | seq, e₁⟩
      · intro h; cases h
      · obtain ⟨-, -, w, -, rfl⟩ := logWrite_ok hlog
        cases Engine.replicate cfg io.calls with
        | error err => intro h; cases h
        | ok n => exact fun _ => ⟨rfl, rfl⟩
  | building io ret records =>
      intro _
      refine ⟨rfl, ?_⟩
      have hdir : ∀ out, Engine.getTables cfg.cipher
          (Engine.putFile e.l0Dir (sstName io.nanos e.nextSstableId) out) k e.l0Tables.reverse
          = Engine.getTables cfg.cipher e.l0Dir k e.l0Tables.reverse := by
        intro out
        exact getTables_congr k (find_beside e.l0Dir
          (fun hx => hs.namedL0.fresh io.nanos (paths_subset hs.rep.l0 hx)) out)
      simp only [Phase.step]
      repeat' split
      all_goals simp only [Engine.searchTables, hdir]
  | removing io ret i ps => cases ps <;> (intro h; cases h)
  | _ =>
      simp only [Phase.step]
      repeat' split
      all_goals first | exact fun _ => ⟨rfl, rfl⟩ | (intro h; cases h)

end Phase

theorem answerOf_of_answer {ver : MemValue} {v : Bytes} (h : ver.answer = some v) :
    Engine.answerOf ver = .ok v := by
  have hanswers := answers_answerOf ver
  rwa [h] at hanswers

/-- The part of `Get` behind the memtable, on the tree. -/
theorem Engine.Rep.searchTables_eq {cfg : Config} {e : Engine} {s : Lsm Bytes Bytes}
    (h : e.Rep cfg s) (k : Bytes) :
    e.searchTables cfg k = match search (s.l0.reverse ++ s.l1.reverse) k with
      | some v => Engine.answerOf v
      | none => .error (Status.notFound "key not found") := by
  rw [Engine.searchTables, getTables_eq h.reverse_l0, getTables_eq h.reverse_l1, search_append]
  cases search s.l0.reverse k with
  | some v => rfl
  | none =>
      cases search s.l1.reverse k with
      | some v => rfl
      | none => rfl

/-- **Readers beside one other call**, none of which writes `k`. `old` is
what the tables answered for `k` at the start. -/
structure Beside (cfg : Config) (k v : Bytes) (old : Res Bytes) (e : Engine)
    (ps : List (Phase cfg.cipher)) (s : Lsm Bytes Bytes)
    (pend : List (Table Bytes Bytes)) (rs : List WalRecord) : Prop where
  lanes : Lanes cfg e ps s pend rs
  told : (s.plus pend).get k = some v
  others : ∀ p ∈ ps, p.key? ≠ some k
  single : ps.Pairwise fun p q => p.reads = true ∨ q.reads = true
  missed : ∀ p ∈ ps, p.searches k = true → e.memtable.table.find k = none
  early : ∀ p ∈ ps, p.early = true → e.searchTables cfg k = old

namespace Beside

variable {cfg : Config} {k v : Bytes} {old : Res Bytes} {e : Engine}
  {s : Lsm Bytes Bytes} {pend : List (Table Bytes Bytes)} {rs : List WalRecord}
  {p : Phase cfg.cipher} {ps : List (Phase cfg.cipher)}

theorem perm {ps' : List (Phase cfg.cipher)} (h : Beside cfg k v old e ps s pend rs)
    (hperm : ps.Perm ps') : Beside cfg k v old e ps' s pend rs :=
  ⟨h.lanes.perm hperm, h.told, fun p hp => h.others p (hperm.mem_iff.mpr hp),
    (hperm.pairwise_iff fun hpq => hpq.symm).mp h.single,
    fun p hp => h.missed p (hperm.mem_iff.mpr hp), fun p hp => h.early p (hperm.mem_iff.mpr hp)⟩

theorem reads_or (h : Beside cfg k v old e (p :: ps) s pend rs) :
    p.reads = true ∨ ∀ q ∈ ps, q.reads = true := by
  by_cases hp : p.reads = true
  · exact Or.inl hp
  · exact Or.inr fun q hq => ((List.pairwise_cons.mp h.single).1 q hq).resolve_left hp

/-- **Any step of any of the calls.** -/
theorem step (hcfg : cfg.Reliable) (h : Beside cfg k v old e (p :: ps) s pend rs) :
    ∃ s' pend', Beside cfg k v old (p.step cfg e).1 ((p.step cfg e).2 :: ps) s' pend'
      (rs ++ p.appended cfg e) := by
  obtain ⟨s', pend', hl, hmoves⟩ := h.lanes.step hcfg (Phase.polite_of_reads h.reads_or)
  have hkey := h.others p List.mem_cons_self
  refine ⟨s', pend', hl, hmoves.get hkey h.told, ?_, ?_, ?_, ?_⟩
  · intro q hq
    rcases List.mem_cons.mp hq with rfl | hq
    · exact Phase.key?_step hkey
    · exact h.others q (List.mem_cons_of_mem _ hq)
  · refine List.pairwise_cons.mpr ⟨fun q hq => ?_, (List.pairwise_cons.mp h.single).2⟩
    rcases h.reads_or with hp | hall
    · exact Or.inl (Phase.reads_step hp).2
    · exact Or.inr (hall q hq)
  · intro q hq hsearch
    rcases List.mem_cons.mp hq with rfl | hq
    · exact Phase.find_none_of_searches hsearch
    · exact Phase.find_none_step hkey (h.missed q (List.mem_cons_of_mem _ hq) hsearch)
  · intro q hq hearly
    rcases List.mem_cons.mp hq with rfl | hq
    · obtain ⟨hp, heq⟩ := Phase.early_step h.lanes.shared k hearly
      rw [heq]
      exact h.early p List.mem_cons_self hp
    · -- a call that may still flush is beside readers only
      rcases h.reads_or with hp | hall
      · rw [(Phase.reads_step hp).1]
        exact h.early q (List.mem_cons_of_mem _ hq) hearly
      · rw [(Phase.harmless_of_reads (hall q hq)).2.2.2.1] at hearly
        cases hearly

theorem tick (hcfg : cfg.Reliable) {t : Threads cfg}
    (h : Beside cfg k v old t.engine t.phases s pend rs) (i : Nat) :
    ∃ s' pend' rs', Beside cfg k v old (t.tick i).engine (t.tick i).phases s' pend' rs' := by
  cases hi : t.phases[i]? with
  | none =>
      rw [Threads.tick_of_none hi]
      exact ⟨s, pend, rs, h⟩
  | some p =>
      obtain ⟨hengine, hperm⟩ := Threads.tick_perm hi
      obtain ⟨s', pend', h'⟩ := (h.perm (Threads.perm_of_get hi)).step hcfg
      rw [hengine]
      exact ⟨s', pend', _, h'.perm hperm.symm⟩

/-- The memtable's version is the acknowledged one. -/
theorem answer_of_find (h : Beside cfg k v old e ps s pend rs) {ver : MemValue}
    (hfind : e.memtable.table.find k = some ver) : Engine.answerOf ver = .ok v := by
  have hmem : (s.plus pend).mem.find k = some ver := h.lanes.shared.rep.mem ▸ hfind
  have htold := h.told
  rw [Lsm.get_eq, hmem] at htold
  exact answerOf_of_answer htold

/-- **Outside the gap the tables answer** for a reader that missed the
memtable. -/
theorem answer_of_free (h : Beside cfg k v old e ps s pend rs)
    (hfind : e.memtable.table.find k = none) (hfree : ∀ p ∈ ps, p.holds k = false) :
    e.searchTables cfg k = .ok v := by
  -- a table on its way does not have the key
  have hpend : search pend.reverse k = none := by
    by_cases hne : pend = []
    · rw [hne]; rfl
    obtain ⟨p, hp, hf⟩ := h.lanes.waiting hne
    have hok := h.lanes.ok p hp
    have hnot := hfree p hp
    have hkeys : ∃ t, pend = [t] ∧ (t.entries.any fun x => x.1 == k) = false := by
      cases p with
      | building io ret records =>
          obtain ⟨-, -, t, ht, rfl⟩ := hok
          exact ⟨t, ht, hnot⟩
      | installing io ret records rd =>
          obtain ⟨-, -, t, ht, rfl, -⟩ := hok
          exact ⟨t, ht, hnot⟩
      | _ => cases hf
    obtain ⟨t, rfl, hany⟩ := hkeys
    rw [List.reverse_singleton, search_cons]
    cases hv : t.find k with
    | none => rfl
    | some ver =>
        have hmem := SortedMap.find_eq_some_iff.mp hv
        rw [List.any_eq_false] at hany
        exact absurd (beq_self_eq_true k) (hany _ hmem)
  have htold := h.told
  have hmem : s.mem.find k = none := h.lanes.shared.rep.mem ▸ hfind
  rw [h.lanes.shared.rep.searchTables_eq]
  rw [Lsm.get, Lsm.path, Lsm.plus, search_cons, hmem, List.reverse_append, search_append,
    search_append, hpend, Option.none_or, Option.none_or, ← search_append] at htold
  cases hs : search (s.l0.reverse ++ s.l1.reverse) k with
  | none => rw [hs] at htold; cases htold
  | some ver =>
      rw [hs] at htold
      exact answerOf_of_answer htold

/-- What a reader gets that looks into the tables now. -/
theorem searchTables_iff (h : Beside cfg k v old e ps s pend rs)
    (hmem : Phase.searching k ∈ ps) :
    e.searchTables cfg k = .ok v ↔
      ¬ (ps.any fun p => p.holds k) = true ∨ old = .ok v := by
  by_cases hhold : (ps.any fun p => p.holds k) = true
  · obtain ⟨p, hp, hpk⟩ := List.any_eq_true.mp hhold
    rw [h.early p hp (Phase.early_of_holds hpk)]
    exact ⟨Or.inr, fun hr => hr.resolve_left fun hno => hno hhold⟩
  · have hfree : ∀ p ∈ ps, p.holds k = false := fun p hp =>
      Bool.eq_false_iff.mpr fun hpk => hhold (List.any_eq_true.mpr ⟨p, hp, hpk⟩)
    rw [h.answer_of_free (h.missed _ hmem (beq_self_eq_true k)) hfree]
    exact iff_of_true rfl (Or.inl hhold)

end Beside

namespace Threads

variable {cfg : Config}

/-- What thread `j` has answered. -/
def answer? (j : Nat) (t : Threads cfg) : Option (Res Bytes) :=
  t.phases[j]?.bind Phase.answer?

theorem answer?_eq_some {j : Nat} {t : Threads cfg} {res : Res Bytes} :
    t.answer? j = some res ↔ t.phases[j]? = some (.answered res) := by
  rw [answer?, Option.bind_eq_some_iff]
  constructor
  · rintro ⟨p, hp, hres⟩
    cases p with
    | answered r => rw [hp, Option.some.inj hres]
    | _ => cases hres
  · exact fun hp => ⟨_, hp, rfl⟩

/-- Thread `j` looks for `k` in the tables while `k` is on its way there. -/
def MeetsGap (k : Bytes) (j : Nat) : List Nat → Threads cfg → Prop
  | [], _ => False
  | i :: is, t =>
      (i = j ∧ (t.phases[j]?.any fun p => p.searches k) = true ∧
        (t.phases.any fun p => p.holds k) = true) ∨ MeetsGap k j is (t.tick i)

instance decidableMeetsGap (k : Bytes) (j : Nat) :
    (is : List Nat) → (t : Threads cfg) → Decidable (t.MeetsGap k j is)
  | [], _ => isFalse not_false
  | i :: is, t =>
      have := decidableMeetsGap k j is (t.tick i)
      inferInstanceAs (Decidable (_ ∨ _))

theorem get_tick_of_ne (t : Threads cfg) {i j : Nat} (h : i ≠ j) :
    (t.tick i).phases[j]? = t.phases[j]? := by
  unfold tick
  cases t.phases[i]? with
  | none => rfl
  | some p => exact List.getElem?_set_ne h

theorem get_tick_self {t : Threads cfg} {i : Nat} {p : Phase cfg.cipher}
    (hi : t.phases[i]? = some p) : (t.tick i).phases[i]? = some (p.step cfg t.engine).2 := by
  simp only [tick, hi]
  exact List.getElem?_set_self (List.getElem?_eq_some_iff.mp hi).1

/-- An answer stays, and its reader is out of the gap for good. -/
theorem answered_run (k : Bytes) {j : Nat} {res : Res Bytes} (is : List Nat) :
    ∀ {t : Threads cfg}, t.phases[j]? = some (.answered res) →
      (t.run is).phases[j]? = some (.answered res) ∧ ¬ t.MeetsGap k j is := by
  induction is with
  | nil => intro t ht; exact ⟨ht, not_false⟩
  | cons i is ih =>
      intro t ht
      have htick : (t.tick i).phases[j]? = some (.answered res) := by
        by_cases hij : i = j
        · subst hij
          exact get_tick_self ht
        · rw [get_tick_of_ne t hij]
          exact ht
      obtain ⟨hrun, hgap⟩ := ih htick
      refine ⟨hrun, ?_⟩
      rintro (⟨-, hsearch, -⟩ | hlater)
      · rw [ht] at hsearch; cases hsearch
      · exact hgap hlater

end Threads

/-- **A reader's answer is decided where it looks into the tables.** -/
theorem answer_iff {cfg : Config} (hcfg : cfg.Reliable) {k v : Bytes} (hk : k ≠ [])
    {old res : Res Bytes} {j : Nat} (is : List Nat) :
    ∀ {t : Threads cfg} {s : Lsm Bytes Bytes} {pend : List (Table Bytes Bytes)}
      {rs : List WalRecord}, Beside cfg k v old t.engine t.phases s pend rs →
      (t.phases[j]? = some (.reading k) ∨ t.phases[j]? = some (.searching k)) →
      (t.run is).phases[j]? = some (.answered res) →
      (res = .ok v ↔ ¬ t.MeetsGap k j is ∨ old = .ok v) := by
  induction is with
  | nil =>
      intro t s pend rs _ hj hres
      have hres : t.phases[j]? = some (.answered res) := hres
      rcases hj with hj | hj
      · rw [hj] at hres; cases hres
      · rw [hj] at hres; cases hres
  | cons i is ih =>
      intro t s pend rs h hj hres
      obtain ⟨s', pend', rs', h'⟩ := h.tick hcfg i
      by_cases hij : i = j
      · subst hij
        rcases hj with hj | hj
        · -- the memtable: either it answers, or the reader goes on
          have hno : ¬ (t.phases[i]?.any fun p => p.searches k) = true := by
            rw [hj]; exact Bool.false_ne_true
          have hgap : t.MeetsGap k i (i :: is) ↔ (t.tick i).MeetsGap k i is := by
            rw [Threads.MeetsGap]
            exact or_iff_right fun hhere => hno hhere.2.1
          rw [hgap]
          have hnext := Threads.get_tick_self hj
          simp only [Phase.step, MemTable.get] at hnext
          rw [if_neg (by simp [h.lanes.shared.isOpen]), if_neg hk] at hnext
          cases hf : t.engine.memtable.table.find k with
          | none =>
              rw [hf] at hnext
              exact ih h' (Or.inr hnext) hres
          | some ver =>
              rw [hf] at hnext
              obtain ⟨hrun, hout⟩ := Threads.answered_run k is hnext
              have hsame : res = Engine.answerOf ver := by
                have := hres.symm.trans hrun
                cases this
                rfl
              rw [hsame, h.answer_of_find hf]
              exact iff_of_true rfl (Or.inl hout)
        · -- the tables
          have hnext : (t.tick i).phases[i]? = some (.answered (t.engine.searchTables cfg k)) :=
            Threads.get_tick_self hj
          obtain ⟨hrun, hout⟩ := Threads.answered_run k is hnext
          have hsame : res = t.engine.searchTables cfg k := by
            have := hres.symm.trans hrun
            cases this
            rfl
          have hhere : (t.phases[i]?.any fun p => p.searches k) = true := by
            rw [hj]; exact beq_self_eq_true k
          have hgap : t.MeetsGap k i (i :: is) ↔
              (t.phases.any fun p => p.holds k) = true := by
            rw [Threads.MeetsGap, or_iff_left hout]
            exact ⟨fun hmeets => hmeets.2.2, fun hheld => ⟨rfl, hhere, hheld⟩⟩
          rw [hsame, hgap]
          exact h.searchTables_iff (List.mem_of_getElem? hj)
      · have hgap : t.MeetsGap k j (i :: is) ↔ (t.tick i).MeetsGap k j is := by
          rw [Threads.MeetsGap]
          exact or_iff_right fun hhere => hij hhere.1
        rw [hgap]
        refine ih h' ?_ hres
        rw [Threads.get_tick_of_ne t hij]
        exact hj

/-- Calls that have not begun, one of them not a `Get`. -/
theorem beside_start {cfg : Config} {e : Engine} {s : Lsm Bytes Bytes}
    {rs : List WalRecord} {k v : Bytes} (h : e.Inv cfg s rs) (hget : s.get k = some v)
    {call : Call cfg.cipher} (hclean : call.Clean) (hkey : call.key? ≠ some k)
    (keys : List Bytes) :
    Beside cfg k v (e.searchTables cfg k) e
      (Threads.start e (call :: keys.map .get) : Threads cfg).phases s [] rs := by
  have hcalls : ∀ c ∈ call :: keys.map (Call.get : Bytes → Call cfg.cipher),
      c.Clean ∧ c.key? ≠ some k := by
    intro c hc
    rcases List.mem_cons.mp hc with rfl | hc
    · exact ⟨hclean, hkey⟩
    · obtain ⟨key, -, rfl⟩ := List.mem_map.mp hc
      exact ⟨trivial, (Option.some_ne_none k).symm⟩
  have hreads : ∀ q ∈ (keys.map (Call.get : Bytes → Call cfg.cipher)).map Call.begin,
      q.reads = true := by
    intro q hq
    obtain ⟨c, hc, rfl⟩ := List.mem_map.mp hq
    obtain ⟨key, -, rfl⟩ := List.mem_map.mp hc
    rfl
  refine ⟨lanes_start h fun c hc => (hcalls c hc).1, by rwa [Lsm.plus_nil], ?_, ?_, ?_,
    fun _ _ _ => rfl⟩
  · intro p hp
    obtain ⟨c, hc, rfl⟩ := List.mem_map.mp hp
    have hc := (hcalls c hc).2
    cases c <;> exact hc
  · refine List.pairwise_cons.mpr ⟨fun q hq => Or.inr (hreads q hq), ?_⟩
    exact List.pairwise_iff_forall_sublist.mpr fun {p q} hsub =>
      Or.inl (hreads p (hsub.subset List.mem_cons_self))
  · intro p hp hsearch
    obtain ⟨c, -, rfl⟩ := List.mem_map.mp hp
    cases c <;> cases hsearch

/-- **A read beside a flush answers the acknowledged value exactly when it
does not look into the tables during the gap.** An engine was opened on an
empty directory; `Set(k, v)` returned `Ok`, and `k` was not written since.
Then one call (a flush, a `Set` of another key with the flush and the
compaction behind it, a compaction) and any number of `Get` calls are
interleaved in any way. A `Get(k)` among them answers `v`, if and only if it
does not meet the gap or the tables answered `v` before. -/
theorem get_during_flush_iff {cfg : Config} (hcfg : cfg.Reliable) {ioOpen : OpenIo}
    {e e₁ : Engine} (hopen : (Engine.fresh cfg).open cfg ioOpen = (.ok 0, e))
    {before after : List (Op cfg.cipher)} {io : WriteIo cfg.cipher} {k v : Bytes} {n : Nat}
    (hbefore : ∀ op ∈ before, op.Clean) (hio : io.flush.Clean)
    (hset : ((e.run cfg before).set cfg io k v).1 = .ok n)
    (hafter : ∀ op ∈ after, op.Clean ∧ op.call.key? ≠ some k)
    (hrun : ((e.run cfg before).set cfg io k v).2.run cfg after = e₁)
    {call : Call cfg.cipher} (hclean : call.Clean) (hkey : call.key? ≠ some k)
    {keys : List Bytes} {schedule : List Nat} {j : Nat} (hj : keys[j]? = some k)
    {res : Res Bytes}
    (hres : ((Threads.start e₁ (call :: keys.map .get)).run schedule).answer? (j + 1)
      = some res) :
    res = .ok v ↔
      ¬ (Threads.start e₁ (call :: keys.map .get)).MeetsGap k (j + 1) schedule ∨
        e₁.searchTables cfg k = .ok v := by
  obtain ⟨s, rs, hinv⟩ := Engine.Inv.run hcfg before (inv_of_open hopen) hbefore
  obtain ⟨s₁, rs₁, hinv₁, hget₁⟩ := hinv.get_set hcfg hio hset
  obtain ⟨s₂, rs₂, hinv₂, hget₂⟩ := Engine.Inv.get_run hcfg after hinv₁ hget₁ hafter
  rw [hrun] at hinv₂
  have hk : k ≠ [] := by
    obtain ⟨ver, hs, -, -⟩ := Lsm.live_of_get hget₂
    rw [search_eq_head] at hs
    exact hinv₂.key_ne_nil (hinv₂.logged k ver (List.mem_of_mem_head? hs))
  refine answer_iff hcfg hk schedule (beside_start hinv₂ hget₂ hclean hkey keys) (Or.inl ?_)
    (Threads.answer?_eq_some.mp hres)
  show ((keys.map (Call.get : Bytes → Call cfg.cipher)).map Call.begin)[j]? = _
  rw [List.getElem?_map, List.getElem?_map, hj]
  rfl

/-- A key that was set, a flush and a reader of the key. -/
def besideFlush : Threads (smallConfig 4096) :=
  Threads.start ((Small.opened 4096).set (smallConfig 4096) (.quiet (0 : Nat)) [97] [1]).2
    (Small.flushCall 4096 :: [[97]].map .get)

/-- The reader misses the memtable after the flush has drained it, and looks
into the tables when the new one is installed. -/
theorem besideFlush_free : ∃ res, (besideFlush.run [0, 1, 0, 0, 1]).answer? 1 = some res ∧
    res = .ok [1] := by
  have hres : (besideFlush.run [0, 1, 0, 0, 1]).answer? 1 = some (.ok [1]) := by
    decide +kernel
  have hset : (((Small.opened 4096).run (smallConfig 4096) []).set (smallConfig 4096)
      (.quiet (0 : Nat)) [97] [1]).1 = .ok 1 := by decide +kernel
  have hbefore : ∀ op ∈ ([] : List (Op (smallConfig 4096).cipher)), op.Clean :=
    fun _ h => absurd h List.not_mem_nil
  have hafter : ∀ op ∈ ([] : List (Op (smallConfig 4096).cipher)),
      op.Clean ∧ op.call.key? ≠ some [97] := fun _ h => absurd h List.not_mem_nil
  have hclean : (Small.flushCall 4096).Clean := FlushIo.quiet_clean _
  have hj : ([[97]] : List Bytes)[0]? = some [97] := rfl
  refine ⟨_, hres, (get_during_flush_iff (smallConfig_standalone 4096).toReliable
    (Small.opened_ok 4096 (by decide +kernel)) hbefore (FlushIo.quiet_clean _) hset hafter rfl
    hclean (by decide) hj hres).mpr (Or.inl ?_)⟩
  show ¬ besideFlush.MeetsGap [97] 1 [0, 1, 0, 0, 1]
  decide +kernel

/-- **A reader in the gap** is told that the key is not there: the flush has
drained the memtable and not yet built its table. -/
theorem besideFlush_missed :
    ((Small.opened 4096).set (smallConfig 4096) (.quiet (0 : Nat)) [97] [1]).1 = .ok 1 ∧
    (besideFlush.run [0, 1, 1]).answer? 1
      = some (.error (Status.notFound "key not found")) := by
  decide +kernel

end VaultKV
