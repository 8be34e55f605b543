import VaultKV.Engine.Opening

/-!
# Engine — the engine as a map

`Engine.Inv` is what a run without failures keeps: the engine stands for a
merge tree all of whose versions are in the log, and every table file
carries a number below the next one, so a new file never replaces an old
one. `Inv.step` relates one operation to one step of the map: they agree
EXACTLY when the compaction the operation may start is safe. The run lemma
follows by induction over the operations.
-/

namespace VaultKV

open Lib

/-- Crypto works. -/
structure Config.Reliable (cfg : Config) : Prop where
  lawful : cfg.cipher.Lawful
  encrypts : ∀ rand p, (cfg.cipher.encrypt rand p).isSome

/-- The surroundings of a single node: crypto works, replication is off. -/
structure Config.Standalone (cfg : Config) : Prop extends cfg.Reliable where
  alone : cfg.opts.enableReplication = false

/-- All files of the directory were named with a number below `n`. -/
def Named (n : Nat) (dir : SortedMap Bytes Bytes) : Prop :=
  ∀ p ∈ dir.keys, ∃ nanos i, p = sstName nanos i ∧ i < n

theorem Named.fresh {n : Nat} {dir : SortedMap Bytes Bytes} (h : Named n dir)
    (nanos : Nat) : sstName nanos n ∉ dir.keys := by
  intro hp
  obtain ⟨nanos', i, heq, hi⟩ := h _ hp
  exact sstName_ne (by omega) heq

theorem Named.mono {n n' : Nat} {dir dir' : SortedMap Bytes Bytes} (h : Named n dir)
    (hn : n ≤ n') (hsub : ∀ p ∈ dir'.keys, p ∈ dir.keys ∨
      ∃ nanos i, p = sstName nanos i ∧ i < n') : Named n' dir' := by
  intro p hp
  rcases hsub p hp with hp | hp
  · obtain ⟨nanos, i, heq, hi⟩ := h p hp
    exact ⟨nanos, i, heq, by omega⟩
  · exact hp

/-- A reader's file is in its directory. -/
theorem paths_subset {c : Cipher} {dir : SortedMap Bytes Bytes} {rds : List SstableReader}
    {ts : List (Table Bytes Bytes)} (h : List.Forall₂ (TableAt c dir) rds ts) {p : Bytes}
    (hp : p ∈ rds.map SstableReader.path) : p ∈ dir.keys := by
  induction h with
  | nil => cases hp
  | cons hhead _ ih =>
      rcases List.mem_cons.mp hp with rfl | hp
      · obtain ⟨file, hfile, -, -⟩ := hhead
        rw [← SortedMap.find_isSome_iff, hfile]
        rfl
      · exact ih hp

/-- The invariant of a run without failures. -/
structure Engine.Inv (cfg : Config) (e : Engine) (s : Lsm Bytes Bytes)
    (rs : List WalRecord) : Prop where
  isOpen : e.isOpen = true
  rep : e.Rep cfg s
  counts : e.wal.Counts cfg.opts.walSegmentSizeBytes rs
  bound : cfg.opts.walSegmentSizeBytes < 2 ^ 57
  logged : s.Each (Logged rs)
  sound : s.Sound
  keys : ∀ r ∈ rs, r.key ≠ []
  namedL0 : Named e.nextSstableId e.l0Dir
  namedL1 : Named e.nextSstableId e.l1Dir

namespace Engine.Inv

variable {cfg : Config} {e : Engine} {s : Lsm Bytes Bytes} {rs : List WalRecord}

theorem key_ne_nil (h : e.Inv cfg s rs) {k : Bytes} {v : MemValue} (hl : Logged rs k v) :
    k ≠ [] := by
  obtain ⟨r, hr, rfl, -⟩ := hl
  exact h.keys r hr

/-! ## Writes -/

/-- A record in the log that no table holds. -/
theorem append (hcfg : cfg.cipher.Lawful) (h : e.Inv cfg s rs) {ts seq : Nat}
    {rand : cfg.cipher.Rand} {op : WalOp} {key value : Bytes} {w : Wal} (hkey : key ≠ [])
    (happ : e.wal.append cfg.cipher cfg.opts.walSegmentSizeBytes ts rand op key value
      = (.ok seq, w)) :
    Engine.Inv cfg { e with wal := w } s (rs ++ [⟨op, seq, ts % 2 ^ 64, key, value⟩]) := by
  obtain ⟨-, hcounts⟩ := h.counts.append hcfg h.bound happ
  refine ⟨h.isOpen, ⟨h.rep.mem, h.rep.l0, h.rep.l1⟩, hcounts, h.bound, ?_, h.sound, ?_,
    h.namedL0, h.namedL1⟩
  · exact h.logged.imp fun k v hl => hl.mono fun r hr => List.mem_append_left _ hr
  · intro r hr
    rcases List.mem_append.mp hr with hr | hr
    · exact h.keys r hr
    · rw [List.mem_singleton.mp hr]
      exact hkey

/-- A record in the log and in the memtable. -/
theorem put (hcfg : cfg.cipher.Lawful) (h : e.Inv cfg s rs) {ts seq : Nat}
    {rand : cfg.cipher.Rand} {op : WalOp} {key value : Bytes} {w : Wal} {v : MemValue}
    (hkey : key ≠ [])
    (happ : e.wal.append cfg.cipher cfg.opts.walSegmentSizeBytes ts rand op key value
      = (.ok seq, w))
    (hv : WalRecord.version? ⟨op, seq, ts % 2 ^ 64, key, value⟩ = some v) :
    Engine.Inv cfg { e with wal := w, memtable := e.memtable.put key v } (s.write key v)
      (rs ++ [⟨op, seq, ts % 2 ^ 64, key, value⟩]) := by
  have hlog := h.append hcfg hkey happ
  obtain ⟨hseq, -⟩ := h.counts.append hcfg h.bound happ
  have hvseq : v.seq = seq := (WalRecord.version?_spec hv).1
  refine ⟨hlog.isOpen, ⟨?_, hlog.rep.l0, hlog.rep.l1⟩, hlog.counts, hlog.bound, ?_, ?_,
    hlog.keys, hlog.namedL0, hlog.namedL1⟩
  · rw [MemTable.table_put, h.rep.mem]
    rfl
  · exact hlog.logged.write ⟨_, List.mem_append_right _ List.mem_cons_self, rfl, hv⟩
  · -- the new number is above every number in the log so far
    refine h.sound.write (n := rs.length) ?_ key (by omega)
    exact h.logged.imp fun k w hl => h.counts.logged_seq hl

/-! ## Compaction -/

/-- A compaction that does nothing but take a number, or not even that. -/
theorem renumbered (h : e.Inv cfg s rs) {n : Nat} (hn : e.nextSstableId ≤ n) :
    Engine.Inv cfg { e with nextSstableId := n } s rs :=
  ⟨h.isOpen, ⟨h.rep.mem, h.rep.l0, h.rep.l1⟩, h.counts, h.bound, h.logged, h.sound, h.keys,
    h.namedL0.mono hn fun _ hp => Or.inl hp, h.namedL1.mono hn fun _ hp => Or.inl hp⟩

/-- **A compaction without failures**: it changes no answer exactly when it
is safe, and it reports an error only when level 0 has no live record. -/
theorem compact (hcfg : cfg.Reliable) (h : e.Inv cfg s rs) {io : CompactIo cfg.cipher}
    (hio : io.Clean) :
    ∃ res e' s', e.maybeCompact cfg io = (res, e') ∧ e'.Inv cfg s' rs ∧
      ((∀ k, k ≠ [] → s'.get k = s.get k) ↔ (Lsm.Compactable s → s.CompactSafe)) ∧
      (res = .ok 0 ∨ (Lsm.live s.merged).entries = []) := by
  have hfresh := h.namedL1.fresh io.nanos
  by_cases hcompact : Lsm.Compactable s
  · obtain ⟨rd, f, -, -, hat, heq⟩ := maybeCompact_clean hcfg.lawful hcfg.encrypts hio h.rep
      h.counts h.bound h.logged hcompact
    have hrep := h.rep.compact hat (fun hp => hfresh (paths_subset h.rep.l1 hp))
      (e.nextSstableId + 1) (Engine.removeFiles io.removeFails 0
        (e.l0Tables.map SstableReader.path) e.l0Dir)
    refine ⟨.ok 0, _, s.compact, heq, ⟨h.isOpen, hrep, h.counts, h.bound,
      h.logged.compact h.sound, h.sound.compact, h.keys, ?_, ?_⟩, ?_, Or.inl rfl⟩
    · exact h.namedL0.mono (Nat.le_succ _)
        fun p hp => Or.inl (mem_keys_removeFiles _ _ 0 _ p hp)
    · refine h.namedL1.mono (Nat.le_succ _) fun p hp => ?_
      rcases SortedMap.mem_keys_insert.mp hp with rfl | hp
      · exact Or.inr ⟨_, _, rfl, Nat.lt_succ_self _⟩
      · exact Or.inl hp
    · constructor
      · intro hget _
        refine Lsm.compactSafe_of_get h.sound fun x hx => hget x.1 ?_
        exact h.key_ne_nil (h.logged.merged (SortedMap.find_eq_some_iff.mpr hx))
      · intro hsafe k _
        exact Lsm.get_compact_of_safe h.sound (hsafe hcompact) k
  · have hsame : (∀ k, k ≠ [] → s.get k = s.get k) ↔ (Lsm.Compactable s → s.CompactSafe) :=
      ⟨fun _ hc => absurd hc hcompact, fun _ _ _ => rfl⟩
    have hlen := h.rep.length_l0
    by_cases hfew : s.l0.length < 4
    · exact ⟨.ok 0, e, s, maybeCompact_few io (by omega), h, hsame, Or.inl rfl⟩
    · have hnone : (Lsm.live s.merged).entries = [] :=
        by_contra fun hne => hcompact ⟨by omega, hne⟩
      exact ⟨_, _, s, maybeCompact_dead hcfg.lawful hio h.rep (by omega) hnone hfresh,
        h.renumbered (Nat.le_succ _), hsame, Or.inr hnone⟩

/-! ## Flush -/

/-- The invariant behind a flush that had something to write. -/
theorem flushed (h : e.Inv cfg s rs) {m : MemTable} {nanos : Nat} {f : Bytes}
    {rds : List SstableReader}
    (hrep : Engine.Rep cfg
      { e with memtable := m
               nextSstableId := e.nextSstableId + 1
               l0Dir := e.l0Dir.insert (sstName nanos e.nextSstableId) f
               l0Tables := rds } s.flush) :
    Engine.Inv cfg
      { e with memtable := m
               nextSstableId := e.nextSstableId + 1
               l0Dir := e.l0Dir.insert (sstName nanos e.nextSstableId) f
               l0Tables := rds } s.flush rs := by
  refine ⟨h.isOpen, hrep, h.counts, h.bound, h.logged.flush, h.sound.flush, h.keys, ?_,
    h.namedL1.mono (Nat.le_succ _) fun p hp => Or.inl hp⟩
  refine h.namedL0.mono (Nat.le_succ _) fun p hp => ?_
  rcases SortedMap.mem_keys_insert.mp hp with rfl | hp
  · exact Or.inr ⟨_, _, rfl, Nat.lt_succ_self _⟩
  · exact Or.inl hp

/-- After a flush level 0 holds the live keys of the memtable. -/
theorem live_flush_ne_nil (h : e.Inv cfg s rs) {k : Bytes} {v : MemValue}
    (hfind : s.mem.find k = some v) (hlive : v.tombstone = false) :
    (Lsm.live s.flush.merged).entries ≠ [] := by
  have hmerged : s.flush.merged.find k = some v := by
    rw [Lsm.find_merged h.sound.flush, Lsm.flush, List.reverse_append, search_append]
    simp [search_cons, hfind]
  have hkept : (Lsm.live s.flush.merged).find k = some v := by
    rw [Lsm.find_live, hmerged]
    simp [Option.filter_some, hlive]
  intro hnil
  have hmem := SortedMap.find_eq_some_iff.mp hkept
  rw [hnil] at hmem
  cases hmem

/-- **A flush without failures**: it changes no answer exactly when the
compaction behind it is safe, and it succeeds if a live key is flushed. -/
theorem flush (hcfg : cfg.Reliable) (h : e.Inv cfg s rs) {io : FlushIo cfg.cipher}
    (hio : io.Clean) :
    ∃ res e' s', e.flushMemTable cfg io = (res, e') ∧ e'.Inv cfg s' rs ∧
      ((∀ k, k ≠ [] → s'.get k = s.get k) ↔
        ∀ e₁ ∈ e.flushPoint cfg io, e₁.SafePoint cfg) ∧
      (∀ k v, s.mem.find k = some v → v.tombstone = false → res = .ok 0) := by
  have hopen : ¬ e.isOpen = false := by simp [h.isOpen]
  unfold Engine.flushMemTable Engine.flushPoint
  rw [if_neg hopen, if_neg hopen]
  by_cases hmem : s.mem.entries = []
  · rw [buildAndInstall_empty h.rep hmem]
    have hempty : s.mem = SortedMap.empty := SortedMap.ext_find fun k => by
      rw [SortedMap.find, hmem]; rfl
    refine ⟨.ok 0, _, s, rfl, ⟨h.isOpen, ⟨hempty.symm, h.rep.l0, h.rep.l1⟩, h.counts,
      h.bound, h.logged, h.sound, h.keys, h.namedL0, h.namedL1⟩, ?_, fun _ _ _ _ => rfl⟩
    simp
  · obtain ⟨rd, f, -, -, hat, hbuild⟩ := buildAndInstall_clean hcfg.lawful hcfg.encrypts
      hio.build hio.install h.rep h.counts h.bound h.logged hmem
    have hrep := h.rep.flush hat
      (fun hp => h.namedL0.fresh io.nanos (paths_subset h.rep.l0 hp))
      (m := (e.memtable.drainSorted true).2) rfl (e.nextSstableId + 1)
    have h₁ := h.flushed hrep
    obtain ⟨res, e', s', heq, hinv, hget, hres⟩ := h₁.compact hcfg hio.compact
    rw [hbuild]
    refine ⟨res, e', s', heq, hinv, ?_, ?_⟩
    · simp only [Lsm.get_flush] at hget
      simp only [Option.mem_some_iff, forall_eq', Engine.SafePoint, hrep.contents]
      exact hget
    · intro k v hfind hlive
      exact hres.resolve_right (h.live_flush_ne_nil hfind hlive)

/-! ## One operation -/

/-- The tree after a write, read as the map. -/
theorem get_write_eq {c : Cipher} {op : Op c} {key : Bytes} {v : MemValue} {n : Nat}
    (hop : op.write? = some (key, v.answer)) (k : Bytes) :
    (s.write key v).get k = accept s.get (op, .ok n) k := by
  rw [Lsm.get_write, accept]
  simp only [hop]
  by_cases hk : k = key
  · subst hk; rw [if_pos rfl, Function.update_self]
  · rw [if_neg hk, Function.update_of_ne hk]

theorem set (hcfg : cfg.Reliable) (h : e.Inv cfg s rs) {io : WriteIo cfg.cipher}
    (hio : io.flush.Clean) (key value : Bytes) :
    ∃ s' rs', (e.set cfg io key value).2.Inv cfg s' rs' ∧
      ((∀ k, k ≠ [] →
          s'.get k = accept s.get (.set io key value, (e.set cfg io key value).1) k) ↔
        e.SafeStep cfg (.set io key value)) := by
  simp only [Engine.SafeStep, Engine.compactPoint]
  cases Engine.set_writes cfg io key value e with
  | refused err hlog hout =>
      -- nothing happened, nothing is compacted
      rw [hout, hlog]
      refine ⟨s, rs, h, ?_⟩
      simp [accept, Op.write?]
  | unreplicated seq w err hrec hrepl hout =>
      -- the record stays in the log
      simp only [hout, hrec.logWrite, hrepl]
      refine ⟨s, _, h.append hcfg.lawful hrec.key_ne hrec.append, ?_⟩
      simp [accept, Op.write?]
  | applied seq w n hrec hrepl hout =>
      have hkey := hrec.key_ne
      simp only [hout, hrec.logWrite, hrepl, Engine.applySet, MemTable.set_of_ne_nil hkey]
      have hput := h.put hcfg.lawful (v := ⟨value, seq, false⟩) hkey hrec.append rfl
      have hwrite : ∀ n k, (s.write key ⟨value, seq, false⟩).get k
          = accept s.get (.set io key value, .ok n) k := fun n k => get_write_eq rfl k
      by_cases hfull : (e.memtable.put key ⟨value, seq, false⟩).memoryBudget
          ≤ (e.memtable.put key ⟨value, seq, false⟩).approxMemory
      · rw [if_pos hfull, if_pos hfull]
        obtain ⟨res, e', s', heq, hinv, hget, hres⟩ := hput.flush hcfg hio
        -- the key just set is live, so the flush succeeds
        obtain rfl : res = .ok 0 := hres key ⟨value, seq, false⟩
          (by rw [Lsm.write, SortedMap.find_insert, if_pos rfl]) rfl
        rw [heq]
        refine ⟨s', _, hinv, ?_⟩
        dsimp only
        rw [← hget]
        simp only [hwrite seq]
      · rw [if_neg hfull, if_neg hfull]
        refine ⟨_, _, hput, ?_⟩
        simp [hwrite seq]

theorem delete (hcfg : cfg.Reliable) (h : e.Inv cfg s rs) (io : WriteIo cfg.cipher)
    (key : Bytes) :
    ∃ s' rs', (e.delete cfg io key).2.Inv cfg s' rs' ∧
      ∀ k, s'.get k = accept s.get (.delete io key, (e.delete cfg io key).1) k := by
  cases Engine.delete_writes cfg io key e with
  | refused err _ hout =>
      rw [hout]
      exact ⟨s, rs, h, fun k => rfl⟩
  | unreplicated seq w err hrec _ hout =>
      rw [hout]
      exact ⟨s, _, h.append hcfg.lawful hrec.key_ne hrec.append, fun k => rfl⟩
  | applied seq w n hrec _ hout =>
      rw [hout, Engine.applyDelete, MemTable.delete_of_ne_nil hrec.key_ne]
      exact ⟨_, _, h.put hcfg.lawful (v := ⟨[], seq, true⟩) hrec.key_ne hrec.append rfl,
        fun k => get_write_eq rfl k⟩

/-- **One operation is one step of the map** exactly when the compaction it
may start is safe. -/
theorem step (hcfg : cfg.Reliable) (h : e.Inv cfg s rs) {op : Op cfg.cipher}
    (hop : op.Clean) :
    ∃ s' rs', (e.step cfg op).2.Inv cfg s' rs' ∧
      ((∀ k, k ≠ [] → s'.get k = accept s.get (op, (e.step cfg op).1) k) ↔
        e.SafeStep cfg op) := by
  cases op with
  | set io key value => exact h.set hcfg hop key value
  | delete io key =>
      obtain ⟨s', rs', hinv, hget⟩ := h.delete hcfg io key
      exact ⟨s', rs', hinv, iff_of_true (fun k _ => hget k) (fun _ hp => by cases hp)⟩
  | flush io =>
      obtain ⟨res, e', s', heq, hinv, hget, -⟩ := h.flush hcfg hop
      refine ⟨s', rs, ?_, ?_⟩
      · rw [Engine.step, heq]; exact hinv
      · exact hget
  | compact io =>
      obtain ⟨res, e', s', heq, hinv, hget, -⟩ := h.compact hcfg hop
      refine ⟨s', rs, ?_, ?_⟩
      · rw [Engine.step, heq]; exact hinv
      · rw [Engine.SafeStep, Engine.compactPoint]
        simp only [Option.mem_some_iff, forall_eq', Engine.SafePoint, h.rep.contents]
        exact hget

end Engine.Inv

/-! ## Whole runs -/

theorem tablePaths_empty (listFails : Bool) :
    Engine.tablePaths SortedMap.empty listFails = [] := by
  cases listFails <;> rfl

/-- The engine after `Open` on an empty directory. -/
theorem inv_of_open {cfg : Config} {io : OpenIo} {e : Engine}
    (hopen : (Engine.fresh cfg).open cfg io = (.ok 0, e)) :
    e.Inv cfg ⟨SortedMap.empty, [], []⟩ [] := by
  have hopened := (open_ok_iff rfl).mp hopen
  obtain ⟨hlog, -, hoff⟩ := open_log rfl hopened.wal
  obtain ⟨-, -, hmax⟩ := open_eq_of_ok rfl hopened.wal
  have hrec := recovered_resize_nil cfg.cipher cfg.opts.walSegmentSizeBytes
  simp only [Engine.fresh, hrec] at hlog hoff
  have hreplay := hlog.replay Engine.replayRecord true (Engine.fresh cfg).memtable
  have hpf := cfg.platform.maxMap_lt
  have hnil : ∀ k, hits (Lsm.path (⟨SortedMap.empty, [], []⟩ : Lsm Bytes Bytes)) k = [] :=
    fun k => rfl
  rw [hopened.eq]
  simp only [Engine.fresh, tablePaths_empty] at hreplay ⊢
  refine ⟨rfl, ⟨?_, List.Forall₂.nil, List.Forall₂.nil⟩, ?_, by omega, ?_, ?_, ?_, ?_, ?_⟩
  · show MemTable.table (Prod.snd _) = _
    rw [hreplay]
    rfl
  · exact Wal.Counts.nil hlog.lastSeq hoff
  · intro k v hv
    rw [hnil] at hv
    cases hv
  · intro k
    rw [hnil]
    exact List.Pairwise.nil
  · intro r hr
    cases hr
  all_goals
    intro p hp
    cases hp

/-- `Get` tells at most one answer. -/
theorem Answers.unique {r : Res Bytes} {a b : Option Bytes} (ha : Answers r a)
    (hb : Answers r b) : a = b := by
  cases a with
  | none =>
      obtain ⟨msg, rfl⟩ := ha
      cases b with
      | none => rfl
      | some v => cases hb
  | some v =>
      subst ha
      cases b with
      | none => obtain ⟨msg, hb⟩ := hb; cases hb
      | some w => cases hb; rfl

theorem Engine.Inv.answers_iff {cfg : Config} {e : Engine} {s : Lsm Bytes Bytes}
    {rs : List WalRecord} (h : e.Inv cfg s rs) {k : Bytes} (hk : k ≠ []) (a : Option Bytes) :
    Answers (e.get cfg k) a ↔ s.get k = a := by
  have hget := h.rep.get h.isOpen hk
  exact ⟨fun ha => hget.unique ha, fun ha => ha ▸ hget⟩

theorem foldl_accept_congr {c : Cipher} {k : Bytes} (evs : List (Op c × Res Nat)) :
    ∀ {m m' : Bytes → Option Bytes}, m k = m' k →
      evs.foldl accept m k = evs.foldl accept m' k := by
  induction evs with
  | nil => intro m m' h; exact h
  | cons ev evs ih => intro m m' h; exact ih (accept_congr h ev)

/-- **A run without failures** answers as the map all along exactly when
every compaction in it is safe. -/
theorem run_answers_iff {cfg : Config} (hcfg : cfg.Reliable) (ops : List (Op cfg.cipher)) :
    ∀ {e : Engine} {s : Lsm Bytes Bytes} {rs : List WalRecord}, e.Inv cfg s rs →
      (∀ op ∈ ops, op.Clean) →
      ((∀ done, done <+: ops → ∀ k, k ≠ [] → Answers ((e.run cfg done).get cfg k)
          ((e.trace cfg done).foldl accept s.get k)) ↔ e.CompactsSafely cfg ops) := by
  induction ops with
  | nil =>
      intro e s rs h _
      refine iff_of_true (fun done hdone k hk => ?_) trivial
      rw [List.prefix_nil.mp hdone]
      exact h.rep.get h.isOpen hk
  | cons op ops ih =>
      intro e s rs h hops
      obtain ⟨s', rs', hinv, hstep⟩ := h.step hcfg (hops op List.mem_cons_self)
      have hrest := ih hinv fun op' hop' => hops op' (List.mem_cons_of_mem _ hop')
      rw [Engine.CompactsSafely, ← hstep, ← hrest]
      constructor
      · intro hall
        -- the run of one operation tells whether that step was right
        have hone : ∀ k, k ≠ [] → s'.get k = accept s.get (op, (e.step cfg op).1) k :=
          fun k hk => (hinv.answers_iff hk _).mp (hall [op] (by simp) k hk)
        refine ⟨hone, fun done hdone k hk => ?_⟩
        rw [foldl_accept_congr _ (hone k hk)]
        exact hall (op :: done) (List.prefix_cons_inj op |>.mpr hdone) k hk
      · rintro ⟨hone, hall⟩ done hdone k hk
        cases done with
        | nil => exact h.rep.get h.isOpen hk
        | cons op' done =>
            obtain ⟨rfl, hdone'⟩ := List.cons_prefix_cons.mp hdone
            rw [Engine.run, Engine.trace, List.foldl_cons,
              ← foldl_accept_congr _ (hone k hk)]
            exact hall done hdone' k hk

theorem smallConfig_standalone (budget : Nat) : (smallConfig budget).Standalone :=
  ⟨⟨fallback_lawful zeroKey, fun rand p => fallback_encrypt_isSome zeroKey rand p⟩, rfl⟩

/-- **The engine refines a map exactly when no compaction drops a tombstone
level 1 still needs.** On an engine opened on an empty directory, with
replication off and no I/O or crypto failure: `Get` of every key answers its
last accepted write after every operation of the run, if and only if every
compaction of the run is safe. -/
theorem get_refines_map_iff {cfg : Config} (hcfg : cfg.Standalone) {io : OpenIo}
    {e : Engine} (hopen : (Engine.fresh cfg).open cfg io = (.ok 0, e))
    {ops : List (Op cfg.cipher)} (hops : ∀ op ∈ ops, op.Clean) :
    (∀ done, done <+: ops → ∀ k, k ≠ [] →
      Answers ((e.run cfg done).get cfg k) (mapOf (e.trace cfg done) k)) ↔
      e.CompactsSafely cfg ops :=
  run_answers_iff hcfg.toReliable ops (inv_of_open hopen) hops

/-- Two rounds of four flushes, with `a` deleted between them. The memtable
is full after every `Set`. -/
def resurrection : List (Op (smallConfig 1).cipher) :=
  [Small.set 1 97 1, Small.set 1 98 1, Small.set 1 99 1, Small.set 1 100 1,
   Small.delete 1 97,
   Small.set 1 98 2, Small.set 1 98 3, Small.set 1 98 4, Small.set 1 98 5]

/-- **A deleted key comes back.** The first compaction puts `a` into level
1; the second one drops the tombstone of `a` and leaves that table. -/
theorem resurrection_get_deleted :
    ((Engine.fresh (smallConfig 1)).open (smallConfig 1) {}).1 = .ok 0 ∧
    (((Small.opened 1).trace (smallConfig 1) resurrection).all fun ev => ev.2.isOk) = true ∧
    mapOf ((Small.opened 1).trace (smallConfig 1) resurrection) [97] = none ∧
    ((Small.opened 1).run (smallConfig 1) resurrection).get (smallConfig 1) [97] = .ok [1] := by
  decide +kernel

/-- A compaction that drops a tombstone no older table needs. -/
def cleanDelete : List (Op (smallConfig 1).cipher) :=
  [Small.set 1 97 1, Small.delete 1 97, Small.set 1 98 1, Small.set 1 99 1, Small.set 1 99 2]

theorem cleanDelete_refines :
    (Small.opened 1).CompactsSafely (smallConfig 1) cleanDelete ∧
    ∀ done, done <+: cleanDelete → ∀ k, k ≠ [] →
      Answers (((Small.opened 1).run (smallConfig 1) done).get (smallConfig 1) k)
        (mapOf ((Small.opened 1).trace (smallConfig 1) done) k) := by
  have hsafe : (Small.opened 1).CompactsSafely (smallConfig 1) cleanDelete := by decide +kernel
  refine ⟨hsafe, (get_refines_map_iff (smallConfig_standalone 1)
    (Small.opened_ok 1 (by decide +kernel)) ?_).mpr hsafe⟩
  intro op hop
  simp only [cleanDelete, List.mem_cons, List.not_mem_nil, or_false] at hop
  rcases hop with rfl | rfl | rfl | rfl | rfl
  · exact FlushIo.quiet_clean _
  · trivial
  · exact FlushIo.quiet_clean _
  · exact FlushIo.quiet_clean _
  · exact FlushIo.quiet_clean _

end VaultKV
