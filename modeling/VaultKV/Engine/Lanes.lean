import VaultKV.Engine.Refine
import VaultKV.Engine.Threads

/-!
# Engine — interleavings that keep their lanes

A flush takes the memtable's entries out in one step and shows them again,
as a table of level 0, two steps later; a compaction lists level 0 in one
step and empties it in another. In between other threads go on. `Polite`
says which of their steps would do harm: storing a key's records in another
order than the log's, draining or installing while another flush is under
way, installing or listing while a compaction is.

`Lanes` is the invariant of polite interleavings. It speaks about the tree
WITH the table that is on its way to level 0 (`Lsm.plus`): a flush does not
change that tree at all, a write adds to it, and a compaction keeps every
live answer of it (`Lanes.step`).
-/

namespace VaultKV

open Lib

/-! ## Where a phase does harm -/

namespace Phase

variable {c : Cipher}

/-- The call holds what it drained and did not install yet. -/
def flushing : Phase c → Bool
  | .building _ _ _ => true
  | .installing _ _ _ _ => true
  | _ => false

/-- The call listed level 0 and did not swap it out yet. -/
def compacting : Phase c → Bool
  | .merging _ _ _ => true
  | .swapping _ _ _ _ => true
  | _ => false

/-- The key and number of a record that is logged and not stored yet. -/
def unstored : Phase c → Option (Bytes × Nat)
  | .storing _ _ key _ seq => some (key, seq)
  | _ => none

/-- The file of a table that is built and not installed yet. -/
def built : Phase c → Option Bytes
  | .installing _ _ _ rd => some rd.path
  | _ => none

/-- The files the call is going to remove. -/
def removals : Phase c → List Bytes
  | .removing _ _ _ ps => ps
  | _ => []

/-- **The next step of `p` does no harm** to the other calls. -/
def Polite (e : Engine) (p : Phase c) (others : List (Phase c)) : Prop :=
  match p with
  | .storing _ _ key _ seq => ∀ q ∈ others, ∀ x ∈ q.unstored, x.1 = key → seq < x.2
  | .draining _ _ => e.memtable.table.entries ≠ [] → ∀ q ∈ others, q.flushing = false
  | .installing _ _ _ _ => ∀ q ∈ others, q.compacting = false
  | .listing _ _ => 4 ≤ e.l0Tables.length → ∀ q ∈ others, q.compacting = false
  | _ => True

instance (e : Engine) (p : Phase c) (others : List (Phase c)) :
    Decidable (p.Polite e others) := by
  unfold Polite
  cases p <;> infer_instance

end Phase

namespace Threads

variable {cfg : Config}

def Polite (i : Nat) (t : Threads cfg) : Prop :=
  ∀ p ∈ t.phases[i]?, p.Polite t.engine (t.phases.eraseIdx i)

instance (i : Nat) (t : Threads cfg) : Decidable (t.Polite i) :=
  inferInstanceAs (Decidable (∀ p ∈ t.phases[i]?, p.Polite t.engine (t.phases.eraseIdx i)))

/-- Every step of the schedule is polite. -/
def PoliteRun : List Nat → Threads cfg → Prop
  | [], _ => True
  | i :: is, t => t.Polite i ∧ PoliteRun is (t.tick i)

instance decidablePoliteRun : (is : List Nat) → (t : Threads cfg) → Decidable (t.PoliteRun is)
  | [], _ => isTrue trivial
  | i :: is, t =>
      have := decidablePoliteRun is (t.tick i)
      inferInstanceAs (Decidable (_ ∧ _))

/-- The others are the same before and after a step. -/
theorem perm_of_get {t : Threads cfg} {i : Nat} {p : Phase cfg.cipher}
    (hi : t.phases[i]? = some p) : t.phases.Perm (p :: t.phases.eraseIdx i) := by
  obtain ⟨hlt, rfl⟩ := List.getElem?_eq_some_iff.mp hi
  exact (List.getElem_cons_eraseIdx_perm hlt).symm

theorem tick_perm {t : Threads cfg} {i : Nat} {p : Phase cfg.cipher}
    (hi : t.phases[i]? = some p) :
    (t.tick i).engine = (p.step cfg t.engine).1 ∧
      (t.tick i).phases.Perm ((p.step cfg t.engine).2 :: t.phases.eraseIdx i) := by
  obtain ⟨hlt, -⟩ := List.getElem?_eq_some_iff.mp hi
  have hset : (t.phases.set i (p.step cfg t.engine).2)[i]? = some (p.step cfg t.engine).2 :=
    List.getElem?_set_self hlt
  have hperm := perm_of_get (t := ⟨t.engine, t.phases.set i (p.step cfg t.engine).2⟩) hset
  rw [List.eraseIdx_set_eq] at hperm
  simp only [tick, hi]
  exact ⟨trivial, hperm⟩

theorem tick_of_none {t : Threads cfg} {i : Nat} (hi : t.phases[i]? = none) :
    t.tick i = t := by
  simp only [tick, hi]

end Threads

/-! ## The invariant -/

/-- What holds of the shared state: the engine stands for `s`, and `pend`
is on its way to level 0. -/
structure Shared (cfg : Config) (e : Engine) (s : Lsm Bytes Bytes)
    (pend : List (Table Bytes Bytes)) (rs : List WalRecord) : Prop where
  isOpen : e.isOpen = true
  rep : e.Rep cfg s
  counts : e.wal.Counts cfg.opts.walSegmentSizeBytes rs
  bound : cfg.opts.walSegmentSizeBytes < 2 ^ 57
  logged : (s.plus pend).Each (Logged rs)
  sound : (s.plus pend).Sound
  keys : ∀ r ∈ rs, r.key ≠ []
  namedL0 : Named e.nextSstableId e.l0Dir
  namedL1 : Named e.nextSstableId e.l1Dir

/-- What a call knows about the shared state where it stands. -/
def Phase.Ok (cfg : Config) (e : Engine) (s : Lsm Bytes Bytes)
    (pend : List (Table Bytes Bytes)) (rs : List WalRecord) : Phase cfg.cipher → Prop
  | .appending io op _ _ => (op = .kSet ∧ io.flush.Clean) ∨ op = .kDelete
  | .storing io op key value seq =>
      ((op = .kSet ∧ io.Clean) ∨ op = .kDelete) ∧ key ≠ [] ∧
        (∃ ts, (⟨op, seq, ts, key, value⟩ : WalRecord) ∈ rs) ∧
        ∀ w ∈ hits (s.plus pend).path key, w.seq < seq
  | .checking io _ => io.Clean
  | .draining io _ => io.Clean
  | .building io _ records => io.Clean ∧ records ≠ [] ∧
      ∃ t, pend = [t] ∧ records = t.entries
  | .installing io _ records rd => io.Clean ∧ rd.path ∉ e.l0Tables.map SstableReader.path ∧
      ∃ t, pend = [t] ∧ records = t.entries ∧ TableAt cfg.cipher e.l0Dir rd t
  | .listing io _ => io.Clean
  | .merging io _ paths =>
      io.Clean ∧ paths = e.l0Tables.map SstableReader.path ∧ 4 ≤ e.l0Tables.length
  | .swapping _ _ paths rd => paths = e.l0Tables.map SstableReader.path ∧
      rd.path ∉ e.l1Tables.map SstableReader.path ∧
      TableAt cfg.cipher e.l1Dir rd (Lsm.live s.merged)
  | .removing _ _ _ ps => ∀ p ∈ ps, p ∉ e.l0Tables.map SstableReader.path ∧
      ∃ nanos i, p = sstName nanos i ∧ i < e.nextSstableId
  | _ => True

/-- Two calls are in different lanes, and neither removes the file the other
built. -/
structure Apart {c : Cipher} (p q : Phase c) : Prop where
  flush : ¬ (p.flushing = true ∧ q.flushing = true)
  compact : ¬ (p.compacting = true ∧ q.compacting = true)
  left : ∀ x ∈ p.built, x ∉ q.removals
  right : ∀ x ∈ q.built, x ∉ p.removals

theorem Apart.symm {c : Cipher} {p q : Phase c} (h : Apart p q) : Apart q p :=
  ⟨fun hf => h.flush hf.symm, fun hc => h.compact hc.symm, h.right, h.left⟩

/-- **The invariant of polite interleavings.** -/
structure Lanes (cfg : Config) (e : Engine) (ps : List (Phase cfg.cipher))
    (s : Lsm Bytes Bytes) (pend : List (Table Bytes Bytes)) (rs : List WalRecord) :
    Prop where
  shared : Shared cfg e s pend rs
  ok : ∀ p ∈ ps, p.Ok cfg e s pend rs
  apart : ps.Pairwise Apart
  waiting : pend ≠ [] → ∃ p ∈ ps, p.flushing = true

namespace Lanes

variable {cfg : Config} {e : Engine} {s : Lsm Bytes Bytes}
  {pend : List (Table Bytes Bytes)} {rs : List WalRecord}

/-- Which thread runs which call does not matter. -/
theorem perm {ps ps' : List (Phase cfg.cipher)} (h : Lanes cfg e ps s pend rs)
    (hperm : ps.Perm ps') : Lanes cfg e ps' s pend rs := by
  refine ⟨h.shared, fun p hp => h.ok p (hperm.mem_iff.mpr hp), ?_, ?_⟩
  · exact (hperm.pairwise_iff fun hpq => hpq.symm).mp h.apart
  · intro hpend
    obtain ⟨p, hp, hf⟩ := h.waiting hpend
    exact ⟨p, hperm.mem_iff.mp hp, hf⟩

variable {p : Phase cfg.cipher} {others : List (Phase cfg.cipher)}

theorem apart_head (h : Lanes cfg e (p :: others) s pend rs) :
    ∀ q ∈ others, Apart p q := (List.pairwise_cons.mp h.apart).1

/-- **One call steps**: its own part and what the others still know. -/
theorem update (h : Lanes cfg e (p :: others) s pend rs) {e' : Engine}
    {p' : Phase cfg.cipher} {s' : Lsm Bytes Bytes} {pend' : List (Table Bytes Bytes)}
    {rs' : List WalRecord} (hshared : Shared cfg e' s' pend' rs')
    (hok : p'.Ok cfg e' s' pend' rs')
    (hframe : ∀ q ∈ others, q.Ok cfg e s pend rs → q.Ok cfg e' s' pend' rs')
    (hapart : ∀ q ∈ others, Apart p' q)
    (hwait : pend' ≠ [] → p'.flushing = true ∨ (pend ≠ [] ∧ p.flushing = false)) :
    Lanes cfg e' (p' :: others) s' pend' rs' := by
  refine ⟨hshared, ?_, List.pairwise_cons.mpr ⟨hapart, (List.pairwise_cons.mp h.apart).2⟩, ?_⟩
  · intro q hq
    rcases List.mem_cons.mp hq with rfl | hq
    · exact hok
    · exact hframe q hq (h.ok q (List.mem_cons_of_mem _ hq))
  · intro hpend
    rcases hwait hpend with hf | ⟨hpend, hf⟩
    · exact ⟨p', List.mem_cons_self, hf⟩
    · obtain ⟨q, hq, hqf⟩ := h.waiting hpend
      rcases List.mem_cons.mp hq with rfl | hq
      · rw [hf] at hqf; cases hqf
      · exact ⟨q, List.mem_cons_of_mem _ hq, hqf⟩

end Lanes

/-- A call that holds nothing is apart from every other. -/
theorem apart_of_idle {c : Cipher} {p q : Phase c} (hf : p.flushing = false)
    (hc : p.compacting = false) (hb : p.built = none) (hr : p.removals = []) :
    Apart p q := by
  refine ⟨fun h => ?_, fun h => ?_, fun x hx => ?_, fun x _ => ?_⟩
  · rw [hf] at h; cases h.1
  · rw [hc] at h; cases h.1
  · rw [hb] at hx; cases hx
  · rw [hr]; exact List.not_mem_nil

/-- **What another call knows stays true** when the shared state moves on in
this way. -/
theorem Phase.Ok.frame {cfg : Config} {e e' : Engine} {s s' : Lsm Bytes Bytes}
    {pend pend' : List (Table Bytes Bytes)} {rs rs' : List WalRecord}
    {q : Phase cfg.cipher} (h : q.Ok cfg e s pend rs)
    (hid : e.nextSstableId ≤ e'.nextSstableId) (hrs : ∀ r ∈ rs, r ∈ rs')
    (hhits : ∀ x ∈ q.unstored, (∀ w ∈ hits (s.plus pend).path x.1, w.seq < x.2) →
      ∀ w ∈ hits (s'.plus pend').path x.1, w.seq < x.2)
    (hpend : q.flushing = true → pend' = pend)
    (hl0 : ∀ x ∈ e'.l0Tables.map SstableReader.path,
      x ∈ e.l0Tables.map SstableReader.path ∨ (q.flushing = false ∧ x ∉ q.removals))
    (hat : ∀ x ∈ q.built, e'.l0Dir.find x = e.l0Dir.find x)
    (hcompact : q.compacting = true → e'.l0Tables = e.l0Tables ∧ s'.l0 = s.l0 ∧
      e'.l1Dir = e.l1Dir ∧ e'.l1Tables = e.l1Tables) :
    q.Ok cfg e' s' pend' rs' := by
  cases q with
  | appending io op key value => exact h
  | storing io op key value seq =>
      obtain ⟨hop, hkey, ⟨ts, hr⟩, hlt⟩ := h
      exact ⟨hop, hkey, ⟨ts, hrs _ hr⟩, hhits (key, seq) rfl hlt⟩
  | checking io ret => exact h
  | draining io ret => exact h
  | building io ret records =>
      obtain ⟨hio, hne, t, ht, hrec⟩ := h
      exact ⟨hio, hne, t, (hpend rfl).trans ht, hrec⟩
  | installing io ret records rd =>
      obtain ⟨hio, hnew, t, ht, hrec, file, hfile, htable, hreads⟩ := h
      refine ⟨hio, fun hx => ?_, t, (hpend rfl).trans ht, hrec, file, ?_, htable, hreads⟩
      · rcases hl0 _ hx with hx | ⟨hf, -⟩
        · exact hnew hx
        · cases hf
      · rw [hat rd.path rfl]
        exact hfile
  | listing io ret => exact h
  | merging io ret paths =>
      obtain ⟨hl, -, -, -⟩ := hcompact rfl
      exact ⟨h.1, by rw [hl]; exact h.2.1, by rw [hl]; exact h.2.2⟩
  | swapping io ret paths rd =>
      obtain ⟨hl, hs, hd, hl1⟩ := hcompact rfl
      refine ⟨by rw [hl]; exact h.1, by rw [hl1]; exact h.2.1, ?_⟩
      rw [hd, Lsm.merged, hs]
      exact h.2.2
  | removing io ret i ps =>
      intro x hx
      obtain ⟨hnot, nanos, j, hname, hj⟩ := h x hx
      refine ⟨fun hin => ?_, nanos, j, hname, Nat.lt_of_lt_of_le hj hid⟩
      rcases hl0 x hin with hin | ⟨-, hnr⟩
      · exact hnot hin
      · exact hnr hx
  | reading key => exact h
  | searching key => exact h
  | returned res => exact h
  | answered res => exact h

/-- Readers whose files did not change still stand on their tables. -/
theorem tablesAt_congr {c : Cipher} {dir dir' : SortedMap Bytes Bytes}
    {rds : List SstableReader} {ts : List (Table Bytes Bytes)}
    (h : List.Forall₂ (TableAt c dir) rds ts)
    (hdir : ∀ x ∈ rds.map SstableReader.path, dir'.find x = dir.find x) :
    List.Forall₂ (TableAt c dir') rds ts := by
  induction h with
  | nil => exact List.Forall₂.nil
  | cons hhead _ ih =>
      obtain ⟨file, hfile, htable, hreads⟩ := hhead
      exact List.Forall₂.cons ⟨file, by rw [hdir _ List.mem_cons_self, hfile], htable, hreads⟩
        (ih fun x hx => hdir x (List.mem_cons_of_mem _ hx))

/-! ## Writes -/

/-- The version `Set` or `Delete` stores. -/
def storedVersion (op : WalOp) (value : Bytes) (seq : Nat) : MemValue :=
  match op with
  | .kDelete => ⟨[], seq, true⟩
  | _ => ⟨value, seq, false⟩

@[simp] theorem seq_storedVersion (op : WalOp) (value : Bytes) (seq : Nat) :
    (storedVersion op value seq).seq = seq := by
  cases op <;> rfl

theorem version?_storedVersion {op : WalOp} (hop : op = .kSet ∨ op = .kDelete)
    (seq ts : Nat) (key value : Bytes) :
    WalRecord.version? ⟨op, seq, ts, key, value⟩ = some (storedVersion op value seq) := by
  rcases hop with rfl | rfl <;> rfl

/-- Every live answer of the first tree is one of the second. -/
def Keeps (t t' : Lsm Bytes Bytes) : Prop :=
  ∀ k v, search t.path k = some v → v.tombstone = false → search t'.path k = some v

theorem Keeps.refl (t : Lsm Bytes Bytes) : Keeps t t := fun _ _ hv _ => hv

/-- Versions that are met in the second tree were met in the first. -/
theorem Keeps.of_hits {t t' : Lsm Bytes Bytes} (h : ∀ k, hits t'.path k = hits t.path k) :
    Keeps t t' := by
  intro k v hv _
  rw [search_eq_head] at hv ⊢
  rw [h k]
  exact hv

namespace Lanes

variable {cfg : Config} {e : Engine} {s : Lsm Bytes Bytes}
  {pend : List (Table Bytes Bytes)} {rs : List WalRecord}
  {p : Phase cfg.cipher} {others : List (Phase cfg.cipher)}

/-- A step that leaves the shared state alone. -/
theorem idle (h : Lanes cfg e (p :: others) s pend rs) {p' : Phase cfg.cipher}
    (hok : p'.Ok cfg e s pend rs) (hp : p.flushing = false) (hf : p'.flushing = false)
    (hc : p'.compacting = false) (hb : p'.built = none) (hr : p'.removals = []) :
    Lanes cfg e (p' :: others) s pend rs :=
  h.update h.shared hok (fun _ _ hq => hq) (fun _ _ => apart_of_idle hf hc hb hr)
    fun hpend => Or.inr ⟨hpend, hp⟩

/-- The record is in the log, and its call knows it is the newest. -/
theorem appending (hcfg : cfg.Reliable) {io : WriteIo cfg.cipher} {op : WalOp}
    {key value : Bytes} (h : Lanes cfg e (.appending io op key value :: others) s pend rs) :
    Lanes cfg ((Phase.appending io op key value).step cfg e).1
      (((Phase.appending io op key value).step cfg e).2 :: others) s pend
      (rs ++ (Phase.appending io op key value).appended cfg e) := by
  have hop := h.ok _ List.mem_cons_self
  simp only [Phase.step, Phase.appended, Engine.appended]
  rcases hlog : e.logWrite cfg io op key value with ⟨res, e₁⟩
  cases res with
  | error err =>
      rw [logWrite_error hlog, List.append_nil]
      exact h.idle trivial rfl rfl rfl rfl rfl
  | ok seq =>
      obtain ⟨-, hkey, w, happ, rfl⟩ := logWrite_ok hlog
      obtain ⟨hseq, hcounts⟩ := h.shared.counts.append hcfg.lawful h.shared.bound happ
      have hsub : ∀ r ∈ rs, r ∈ rs ++ [(⟨op, seq, io.ts % 2 ^ 64, key, value⟩ : WalRecord)] :=
        fun r hr => List.mem_append_left _ hr
      have hshared : Shared cfg { e with wal := w } s pend
          (rs ++ [⟨op, seq, io.ts % 2 ^ 64, key, value⟩]) := by
        refine ⟨h.shared.isOpen, ⟨h.shared.rep.mem, h.shared.rep.l0, h.shared.rep.l1⟩, hcounts,
          h.shared.bound, h.shared.logged.imp fun k v hl => hl.mono hsub, h.shared.sound, ?_,
          h.shared.namedL0, h.shared.namedL1⟩
        intro r hr
        rcases List.mem_append.mp hr with hr | hr
        · exact h.shared.keys r hr
        · rw [List.mem_singleton.mp hr]
          exact hkey
      have hframe : ∀ q ∈ others, q.Ok cfg e s pend rs → q.Ok cfg { e with wal := w } s pend
          (rs ++ [⟨op, seq, io.ts % 2 ^ 64, key, value⟩]) := fun q _ hq =>
        hq.frame (Nat.le_refl _) hsub (fun _ _ hlt => hlt) (fun _ => rfl)
          (fun _ hx => Or.inl hx) (fun _ _ => rfl) fun _ => ⟨rfl, rfl, rfl, rfl⟩
      dsimp only
      cases Engine.replicate cfg io.calls with
      | error err =>
          exact h.update hshared trivial hframe
            (fun _ _ => apart_of_idle rfl rfl rfl rfl) fun hpend => Or.inr ⟨hpend, rfl⟩
      | ok n =>
          refine h.update hshared ?_ hframe (fun _ _ => apart_of_idle rfl rfl rfl rfl)
            fun hpend => Or.inr ⟨hpend, rfl⟩
          refine ⟨hop, hkey, ⟨_, List.mem_append_right _ List.mem_cons_self⟩, ?_⟩
          intro v hv
          have := h.shared.counts.logged_seq (h.shared.logged key v hv)
          omega

/-- What the store leaves, whatever the call does next. -/
theorem stored {io : FlushIo cfg.cipher} {op : WalOp} {key value : Bytes} {seq : Nat}
    (h : Lanes cfg e (.storing io op key value seq :: others) s pend rs)
    (hp : (Phase.storing io op key value seq).Polite e others) {p' : Phase cfg.cipher}
    (hok : (p' = .checking io seq ∧ io.Clean) ∨ ∃ res, p' = .returned res) :
    Lanes cfg { e with memtable := e.memtable.put key (storedVersion op value seq) }
      (p' :: others) (s.write key (storedVersion op value seq)) pend rs := by
  obtain ⟨hop, hkey, ⟨ts, hr⟩, hlt⟩ := h.ok _ List.mem_cons_self
  have hplus : (s.write key (storedVersion op value seq)).plus pend
      = (s.plus pend).write key (storedVersion op value seq) := rfl
  have hlogged : Logged rs key (storedVersion op value seq) :=
    ⟨_, hr, rfl, version?_storedVersion (hop.imp_left And.left) seq ts key value⟩
  refine h.update ⟨h.shared.isOpen, ⟨?_, h.shared.rep.l0, h.shared.rep.l1⟩, h.shared.counts,
    h.shared.bound, ?_, ?_, h.shared.keys, h.shared.namedL0, h.shared.namedL1⟩ ?_ ?_ ?_
    fun hpend => Or.inr ⟨hpend, rfl⟩
  · rw [MemTable.table_put, h.shared.rep.mem]
    rfl
  · rw [hplus]
    exact h.shared.logged.write hlogged
  · rw [hplus]
    exact h.shared.sound.write_of_lt (by simpa using hlt)
  · rcases hok with ⟨rfl, hio⟩ | ⟨res, rfl⟩
    · exact hio
    · trivial
  · intro q hq hqok
    refine hqok.frame (Nat.le_refl _) (fun _ hr => hr) ?_ (fun _ => rfl)
      (fun _ hx => Or.inl hx) (fun _ _ => rfl) fun _ => ⟨rfl, rfl, rfl, rfl⟩
    intro x hx hall w hw
    rw [hplus] at hw
    by_cases hk : x.1 = key
    · -- another record of this key: it was logged later
      rw [Lsm.hits_path, Lsm.write, SortedMap.find_insert, if_pos hk] at hw
      rcases List.mem_cons.mp hw with rfl | hw
      · rw [seq_storedVersion]
        exact hp q hq x hx hk
      · refine hall w ?_
        rw [Lsm.hits_path]
        exact List.mem_append_right _ hw
    · rw [Lsm.hits_write_of_ne hk] at hw
      exact hall w hw
  · intro q _
    rcases hok with ⟨rfl, -⟩ | ⟨res, rfl⟩
    · exact apart_of_idle rfl rfl rfl rfl
    · exact apart_of_idle rfl rfl rfl rfl

theorem storing {io : FlushIo cfg.cipher} {op : WalOp} {key value : Bytes} {seq : Nat}
    (h : Lanes cfg e (.storing io op key value seq :: others) s pend rs)
    (hp : (Phase.storing io op key value seq).Polite e others) :
    Lanes cfg ((Phase.storing io op key value seq).step cfg e).1
      (((Phase.storing io op key value seq).step cfg e).2 :: others)
      (s.write key (storedVersion op value seq)) pend rs := by
  obtain ⟨hop, hkey, -⟩ := h.ok _ List.mem_cons_self
  rcases hop with ⟨rfl, hio⟩ | rfl
  · simp only [Phase.step, MemTable.set_of_ne_nil hkey]
    exact h.stored hp (Or.inl ⟨rfl, hio⟩)
  · simp only [Phase.step, MemTable.delete_of_ne_nil hkey]
    exact h.stored hp (Or.inr ⟨_, rfl⟩)

theorem checking {io : FlushIo cfg.cipher} {ret : Nat}
    (h : Lanes cfg e (.checking io ret :: others) s pend rs) :
    Lanes cfg ((Phase.checking io ret).step cfg e).1
      (((Phase.checking io ret).step cfg e).2 :: others) s pend rs := by
  have hio : io.Clean := h.ok _ List.mem_cons_self
  simp only [Phase.step]
  by_cases hfull : e.memtable.memoryBudget ≤ e.memtable.approxMemory
  · rw [if_pos hfull]
    exact h.idle hio rfl rfl rfl rfl rfl
  · rw [if_neg hfull]
    exact h.idle trivial rfl rfl rfl rfl rfl

/-! ## The flush lane -/

/-- Draining hands the memtable to the call; the tree with what is on its
way stays the same. -/
theorem draining {io : FlushIo cfg.cipher} {ret : Nat}
    (h : Lanes cfg e (.draining io ret :: others) s pend rs)
    (hp : (Phase.draining io ret).Polite e others) :
    ∃ s' pend', Lanes cfg ((Phase.draining io ret).step cfg e).1
        (((Phase.draining io ret).step cfg e).2 :: others) s' pend' rs ∧
      Keeps (s.plus pend) (s'.plus pend') := by
  have hio : io.Clean := h.ok _ List.mem_cons_self
  have hdrained : (e.memtable.drainSorted true).1 = s.mem.entries := by
    rw [MemTable.drainSorted, MemTable.snapshotSorted_true, h.shared.rep.mem]
  simp only [Phase.step, hdrained]
  rw [if_neg (by simp [h.shared.isOpen])]
  by_cases hmem : s.mem.entries = []
  · rw [if_pos hmem]
    have hempty : s.mem = SortedMap.empty := SortedMap.ext_find fun k => by
      rw [SortedMap.find, hmem]; rfl
    refine ⟨s, pend, h.update ⟨h.shared.isOpen, ⟨hempty.symm, h.shared.rep.l0,
      h.shared.rep.l1⟩, h.shared.counts, h.shared.bound, h.shared.logged, h.shared.sound,
      h.shared.keys, h.shared.namedL0, h.shared.namedL1⟩ trivial ?_
      (fun _ _ => apart_of_idle rfl rfl rfl rfl) fun hpend => Or.inr ⟨hpend, rfl⟩,
      Keeps.refl _⟩
    intro q _ hq
    exact hq.frame (Nat.le_refl _) (fun _ hr => hr) (fun _ _ hlt => hlt) (fun _ => rfl)
      (fun _ hx => Or.inl hx) (fun _ _ => rfl) fun _ => ⟨rfl, rfl, rfl, rfl⟩
  rw [if_neg hmem]
  -- nobody else is flushing, so nothing is on its way yet
  have hnone : ∀ q ∈ others, q.flushing = false :=
    hp (by rw [h.shared.rep.mem]; exact hmem)
  have hpend : pend = [] := by
    by_contra hne
    obtain ⟨q, hq, hf⟩ := h.waiting hne
    rcases List.mem_cons.mp hq with rfl | hq
    · cases hf
    · rw [hnone q hq] at hf; cases hf
  subst hpend
  have hflush : ({ s with mem := SortedMap.empty } : Lsm Bytes Bytes).plus [s.mem] = s.flush :=
    rfl
  refine ⟨{ s with mem := SortedMap.empty }, [s.mem], h.update ⟨h.shared.isOpen,
    ⟨rfl, h.shared.rep.l0, h.shared.rep.l1⟩, h.shared.counts, h.shared.bound, ?_, ?_,
    h.shared.keys, h.shared.namedL0, h.shared.namedL1⟩ ⟨hio, hmem, s.mem, rfl, rfl⟩ ?_ ?_
    fun _ => Or.inl rfl, ?_⟩
  · rw [hflush]
    exact h.shared.logged.of_plus.flush
  · rw [hflush]
    exact h.shared.sound.of_plus.flush
  · intro q hq hqok
    refine hqok.frame (Nat.le_refl _) (fun _ hr => hr) ?_
      (fun hf => by rw [hnone q hq] at hf; cases hf) (fun _ hx => Or.inl hx)
      (fun _ _ => rfl) fun _ => ⟨rfl, rfl, rfl, rfl⟩
    intro x _ hlt
    rw [hflush, Lsm.hits_flush]
    rwa [Lsm.plus_nil] at hlt
  · intro q hq
    refine ⟨fun hf => ?_, fun hc => (by cases hc.1), fun x hx => (by cases hx),
      fun _ _ => List.not_mem_nil⟩
    rw [hnone q hq] at hf
    cases hf.2
  · rw [hflush, Lsm.plus_nil]
    exact Keeps.of_hits fun k => Lsm.hits_flush s k

/-- The file of the table is there under a name nobody else uses. -/
theorem building (hcfg : cfg.Reliable) {io : FlushIo cfg.cipher} {ret : Nat}
    {records : List (Bytes × MemValue)}
    (h : Lanes cfg e (.building io ret records :: others) s pend rs) :
    Lanes cfg ((Phase.building io ret records).step cfg e).1
      (((Phase.building io ret records).step cfg e).2 :: others) s pend rs := by
  obtain ⟨hio, hne, t, rfl, rfl⟩ := h.ok _ List.mem_cons_self
  have hlog : ∀ x ∈ t.entries, Logged rs x.1 x.2 := by
    intro x hx
    refine h.shared.logged x.1 x.2 ?_
    rw [Lsm.hits_plus, List.reverse_singleton, hits_cons,
      SortedMap.find_eq_some_iff.mpr hx]
    exact List.mem_append_right _ List.mem_cons_self
  obtain ⟨m, out, hb, hpath, htable⟩ := build_table hcfg.lawful hcfg.encrypts hio.build
    h.shared.counts h.shared.bound hne hlog (sstName io.nanos e.nextSstableId)
  obtain ⟨rd, hopen, hrd, hat⟩ := tableAt_new hcfg.lawful e.l0Dir
    (p := sstName io.nanos e.nextSstableId) htable
  have hfresh := h.shared.namedL0.fresh io.nanos
  have hfreshRd : rd.path ∉ e.l0Tables.map SstableReader.path := by
    rw [hrd]
    exact fun hx => hfresh (paths_subset h.shared.rep.l0 hx)
  simp only [Phase.step, hb, Engine.putFile, hpath, hio.install, hopen]
  refine h.update ⟨h.shared.isOpen, ⟨h.shared.rep.mem, ?_, h.shared.rep.l1⟩, h.shared.counts,
    h.shared.bound, h.shared.logged, h.shared.sound, h.shared.keys, ?_,
    h.shared.namedL1.mono (Nat.le_succ _) fun p hp => Or.inl hp⟩
    ⟨hio, hfreshRd, t, rfl, rfl, hat⟩ ?_ ?_ fun _ => Or.inl rfl
  · exact tablesAt_insert h.shared.rep.l0 (hrd ▸ hfreshRd) _
  · refine h.shared.namedL0.mono (Nat.le_succ _) fun p hp => ?_
    rcases SortedMap.mem_keys_insert.mp hp with rfl | hp
    · exact Or.inr ⟨_, _, rfl, Nat.lt_succ_self _⟩
    · exact Or.inl hp
  · intro q hq hqok
    refine hqok.frame (Nat.le_succ _) (fun _ hr => hr) (fun _ _ hlt => hlt) (fun _ => rfl)
      (fun _ hx => Or.inl hx) ?_ fun _ => ⟨rfl, rfl, rfl, rfl⟩
    -- a call with a built file is flushing, as this one is
    intro x hx
    have hapart := h.apart_head q hq
    cases q with
    | installing io' ret' records' rd' => exact absurd ⟨rfl, rfl⟩ hapart.flush
    | _ => cases hx
  · intro q hq
    have hapart := h.apart_head q hq
    refine ⟨fun hf => hapart.flush ⟨rfl, hf.2⟩, fun hc => (by cases hc.1), ?_,
      fun _ _ => List.not_mem_nil⟩
    intro x hx hin
    obtain rfl : rd.path = x := Option.some.inj hx
    cases q with
    | removing io' ret' i ps =>
        obtain ⟨-, nanos, j, hname, hj⟩ := h.ok _ (List.mem_cons_of_mem _ hq) _ hin
        exact sstName_ne (Nat.ne_of_gt hj) (hrd.symm.trans hname)
    | _ => cases hin

/-- Installing puts the table where the tree had it already. -/
theorem installing {io : FlushIo cfg.cipher} {ret : Nat} {records : List (Bytes × MemValue)}
    {rd : SstableReader} (h : Lanes cfg e (.installing io ret records rd :: others) s pend rs)
    (hp : (Phase.installing io ret records rd).Polite e others) :
    ∃ s' pend', Lanes cfg ((Phase.installing io ret records rd).step cfg e).1
        (((Phase.installing io ret records rd).step cfg e).2 :: others) s' pend' rs ∧
      s'.plus pend' = s.plus pend := by
  obtain ⟨hio, hnew, t, rfl, -, hat⟩ := h.ok _ List.mem_cons_self
  refine ⟨s.plus [t], [], h.update ⟨h.shared.isOpen, ⟨h.shared.rep.mem, ?_,
    h.shared.rep.l1⟩, h.shared.counts, h.shared.bound, ?_, ?_, h.shared.keys,
    h.shared.namedL0, h.shared.namedL1⟩ hio.compact ?_
    (fun _ _ => apart_of_idle rfl rfl rfl rfl) (fun hne => absurd rfl hne),
    Lsm.plus_nil _⟩
  · exact List.rel_append h.shared.rep.l0 (List.Forall₂.cons hat List.Forall₂.nil)
  · rw [Lsm.plus_nil]
    exact h.shared.logged
  · rw [Lsm.plus_nil]
    exact h.shared.sound
  · intro q hq hqok
    have hapart := h.apart_head q hq
    have hnot : q.flushing = false :=
      Bool.eq_false_iff.mpr fun hf => hapart.flush ⟨rfl, hf⟩
    refine hqok.frame (Nat.le_refl _) (fun _ hr => hr) ?_
      (fun hf => by rw [hnot] at hf; cases hf) ?_ (fun _ _ => rfl)
      (fun hc => by rw [hp q hq] at hc; cases hc)
    · intro x _ hlt
      rw [Lsm.plus_nil]
      exact hlt
    · intro x hx
      have hx : x ∈ (e.l0Tables ++ [rd]).map SstableReader.path := hx
      rw [List.map_append] at hx
      rcases List.mem_append.mp hx with hx | hx
      · exact Or.inl hx
      · rw [List.mem_singleton.mp hx]
        exact Or.inr ⟨hnot, hapart.left _ rfl⟩

/-! ## The compaction lane -/

theorem listing {io : CompactIo cfg.cipher} {ret : Nat}
    (h : Lanes cfg e (.listing io ret :: others) s pend rs)
    (hp : (Phase.listing io ret).Polite e others) :
    Lanes cfg ((Phase.listing io ret).step cfg e).1
      (((Phase.listing io ret).step cfg e).2 :: others) s pend rs := by
  have hio : io.Clean := h.ok _ List.mem_cons_self
  simp only [Phase.step]
  by_cases hfew : e.l0Tables.length < 4
  · rw [if_pos hfew]
    exact h.idle trivial rfl rfl rfl rfl rfl
  rw [if_neg hfew]
  refine h.update h.shared ⟨hio, rfl, Nat.not_lt.mp hfew⟩ (fun _ _ hq => hq) ?_
    fun hpend => Or.inr ⟨hpend, rfl⟩
  intro q hq
  have hnot := hp (Nat.not_lt.mp hfew) q hq
  refine ⟨fun hf => (by cases hf.1), fun hc => ?_, fun _ hx => (by cases hx),
    fun _ _ => List.not_mem_nil⟩
  rw [hnot] at hc
  cases hc.2

/-- The merge reads the tables that were listed: they are still there. -/
theorem merging (hcfg : cfg.Reliable) {io : CompactIo cfg.cipher} {ret : Nat}
    {paths : List Bytes} (h : Lanes cfg e (.merging io ret paths :: others) s pend rs) :
    Lanes cfg ((Phase.merging io ret paths).step cfg e).1
      (((Phase.merging io ret paths).step cfg e).2 :: others) s pend rs := by
  obtain ⟨hio, rfl, hfour⟩ := h.ok _ List.mem_cons_self
  have hlen := h.shared.rep.length_l0
  have hfresh := h.shared.namedL1.fresh io.nanos
  have hname : ∀ dir : SortedMap Bytes Bytes,
      (∀ p ∈ dir.keys, p ∈ e.l1Dir.keys ∨ p = sstName io.nanos e.nextSstableId) →
      Named (e.nextSstableId + 1) dir := by
    intro dir hdir
    refine h.shared.namedL1.mono (Nat.le_succ _) fun p hp => ?_
    rcases hdir p hp with hp | rfl
    · exact Or.inl hp
    · exact Or.inr ⟨_, _, rfl, Nat.lt_succ_self _⟩
  have hframe : ∀ q ∈ others, q.Ok cfg e s pend rs → ∀ dir : SortedMap Bytes Bytes,
      q.Ok cfg { e with nextSstableId := e.nextSstableId + 1, l1Dir := dir } s pend rs :=
    fun q hq hqok dir => hqok.frame (Nat.le_succ _) (fun _ hr => hr) (fun _ _ hlt => hlt)
      (fun _ => rfl) (fun _ hx => Or.inl hx) (fun _ _ => rfl)
      fun hc => absurd ⟨rfl, hc⟩ (h.apart_head q hq).compact
  simp only [Phase.step]
  by_cases hnone : (Lsm.live s.merged).entries = []
  · -- nothing to write: the output does not open, the call fails
    have hfind : e.l1Dir.find (sstName io.nanos e.nextSstableId) = none :=
      SortedMap.find_eq_none_iff.mpr hfresh
    simp only [compactLevel0ToLevel1_dead hcfg.lawful hio.merge h.shared.rep.l0 (by omega)
      hnone, Engine.putFile, hfind]
    exact h.update ⟨h.shared.isOpen, ⟨h.shared.rep.mem, h.shared.rep.l0, h.shared.rep.l1⟩,
      h.shared.counts, h.shared.bound, h.shared.logged, h.shared.sound, h.shared.keys,
      h.shared.namedL0.mono (Nat.le_succ _) fun p hp => Or.inl hp,
      hname _ fun p hp => Or.inl hp⟩ trivial (fun q hq hqok => hframe q hq hqok e.l1Dir)
      (fun _ _ => apart_of_idle rfl rfl rfl rfl) fun hpend => Or.inr ⟨hpend, rfl⟩
  · obtain ⟨out, hmerge, htable⟩ := compactLevel0ToLevel1_clean hcfg.lawful hcfg.encrypts
      hio.merge h.shared.rep.l0 h.shared.counts h.shared.bound
      (fun x hx => h.shared.logged.of_plus.merged (SortedMap.find_eq_some_iff.mpr hx))
      ⟨by omega, hnone⟩ (sstName io.nanos e.nextSstableId)
    obtain ⟨rd, hopen, hrd, hat⟩ := tableAt_new hcfg.lawful e.l1Dir
      (p := sstName io.nanos e.nextSstableId) htable
    have hfreshRd : rd.path ∉ e.l1Tables.map SstableReader.path := by
      rw [hrd]
      exact fun hx => hfresh (paths_subset h.shared.rep.l1 hx)
    simp only [hmerge, Engine.putFile, hio.install, hopen]
    refine h.update ⟨h.shared.isOpen, ⟨h.shared.rep.mem, h.shared.rep.l0,
      tablesAt_insert h.shared.rep.l1 (hrd ▸ hfreshRd) _⟩, h.shared.counts, h.shared.bound,
      h.shared.logged, h.shared.sound, h.shared.keys,
      h.shared.namedL0.mono (Nat.le_succ _) fun p hp => Or.inl hp,
      hname _ fun p hp => (SortedMap.mem_keys_insert.mp hp).symm⟩
      ⟨rfl, hfreshRd, hat⟩ (fun q hq hqok => hframe q hq hqok _) ?_
      fun hpend => Or.inr ⟨hpend, rfl⟩
    intro q hq
    exact ⟨fun hf => (by cases hf.1), fun hc => (h.apart_head q hq).compact ⟨rfl, hc.2⟩,
      fun _ hx => (by cases hx), fun _ _ => List.not_mem_nil⟩

/-- **The swap is a compaction of the tree.** -/
theorem swapping {io : CompactIo cfg.cipher} {ret : Nat} {paths : List Bytes}
    {rd : SstableReader} (h : Lanes cfg e (.swapping io ret paths rd :: others) s pend rs) :
    ∃ s', Lanes cfg ((Phase.swapping io ret paths rd).step cfg e).1
        (((Phase.swapping io ret paths rd).step cfg e).2 :: others) s' pend rs ∧
      Keeps (s.plus pend) (s'.plus pend) := by
  obtain ⟨rfl, hnew, hat⟩ := h.ok _ List.mem_cons_self
  have hsound := h.shared.sound.of_plus
  have hsub := Lsm.hits_compact_plus_sublist hsound pend
  refine ⟨s.compact, h.update ⟨h.shared.isOpen, ⟨h.shared.rep.mem, List.Forall₂.nil,
    List.rel_append h.shared.rep.l1 (List.Forall₂.cons hat List.Forall₂.nil)⟩,
    h.shared.counts, h.shared.bound, fun k v hv => h.shared.logged k v ((hsub k).subset hv),
    fun k => (h.shared.sound k).sublist (hsub k), h.shared.keys, h.shared.namedL0,
    h.shared.namedL1⟩ ?_ ?_ ?_ fun hpend => Or.inr ⟨hpend, rfl⟩,
    fun k v hv hlive => Lsm.search_compact_plus hsound pend hv hlive⟩
  · intro x hx
    exact ⟨List.not_mem_nil, h.shared.namedL0 x (paths_subset h.shared.rep.l0 hx)⟩
  · intro q hq hqok
    exact hqok.frame (Nat.le_refl _) (fun _ hr => hr)
      (fun x _ hlt w hw => hlt w ((hsub x.1).subset hw)) (fun _ => rfl)
      (fun _ hx => absurd hx List.not_mem_nil) (fun _ _ => rfl)
      fun hc => absurd ⟨rfl, hc⟩ (h.apart_head q hq).compact
  · intro q hq
    refine ⟨fun hf => (by cases hf.1), fun hc => (by cases hc.1), fun _ hx => (by cases hx), ?_⟩
    -- a file that is built and not installed is not in level 0
    intro x hx
    cases q with
    | installing io' ret' records' rd' =>
        obtain rfl : rd'.path = x := Option.some.inj hx
        exact (h.ok _ (List.mem_cons_of_mem _ hq)).2.1
    | _ => cases hx

theorem removing {io : CompactIo cfg.cipher} {ret i : Nat} {ps : List Bytes}
    (h : Lanes cfg e (.removing io ret i ps :: others) s pend rs) :
    Lanes cfg ((Phase.removing io ret i ps).step cfg e).1
      (((Phase.removing io ret i ps).step cfg e).2 :: others) s pend rs := by
  have hok := h.ok _ List.mem_cons_self
  cases ps with
  | nil => exact h.idle trivial rfl rfl rfl rfl rfl
  | cons x ps =>
      have hkeep : ∀ y, y ≠ x →
          (if io.removeFails i then e.l0Dir else e.l0Dir.erase x).find y = e.l0Dir.find y := by
        intro y hy
        by_cases hf : io.removeFails i = true
        · rw [if_pos hf]
        · rw [if_neg hf, SortedMap.find_erase, if_neg hy]
      have hkeys : ∀ y ∈ (if io.removeFails i then e.l0Dir else e.l0Dir.erase x).keys,
          y ∈ e.l0Dir.keys := by
        intro y hy
        by_cases hf : io.removeFails i = true
        · rwa [if_pos hf] at hy
        · rw [if_neg hf, ← SortedMap.find_isSome_iff, SortedMap.find_erase] at hy
          by_cases hyx : y = x
          · rw [if_pos hyx] at hy; cases hy
          · rwa [if_neg hyx, SortedMap.find_isSome_iff] at hy
      have hx := hok x List.mem_cons_self
      simp only [Phase.step]
      refine h.update ⟨h.shared.isOpen, ⟨h.shared.rep.mem, ?_, h.shared.rep.l1⟩,
        h.shared.counts, h.shared.bound, h.shared.logged, h.shared.sound, h.shared.keys,
        h.shared.namedL0.mono (Nat.le_refl _) fun y hy => Or.inl (hkeys y hy),
        h.shared.namedL1⟩ (fun y hy => hok y (List.mem_cons_of_mem _ hy)) ?_ ?_
        fun hpend => Or.inr ⟨hpend, rfl⟩
      · exact tablesAt_congr h.shared.rep.l0 fun y hy => hkeep y (fun heq => hx.1 (heq ▸ hy))
      · intro q hq hqok
        refine hqok.frame (Nat.le_refl _) (fun _ hr => hr) (fun _ _ hlt => hlt) (fun _ => rfl)
          (fun _ hin => Or.inl hin) ?_ fun _ => ⟨rfl, rfl, rfl, rfl⟩
        intro y hy
        exact hkeep y fun heq =>
          (h.apart_head q hq).right y hy (heq ▸ List.mem_cons_self)
      · intro q hq
        exact ⟨fun hf => (by cases hf.1), fun hc => (by cases hc.1), fun _ hb => (by cases hb),
          fun y hy hin => (h.apart_head q hq).right y hy (List.mem_cons_of_mem _ hin)⟩

/-! ## Any step -/

/-- What a step of `p` does to the tree with what is on its way: a store
writes its version, every other step keeps the live answers. -/
def Moves {c : Cipher} (p : Phase c) (t t' : Lsm Bytes Bytes) : Prop :=
  match p with
  | .storing _ op key value seq => t' = t.write key (storedVersion op value seq)
  | _ => Keeps t t'

theorem unlogged {e' : Engine} {ps : List (Phase cfg.cipher)}
    (h : Lanes cfg e' ps s pend rs) (hp : p.appended cfg e = []) :
    Lanes cfg e' ps s pend (rs ++ p.appended cfg e) := by
  rw [hp, List.append_nil]
  exact h

/-- A step of a reader, or of a call that has returned. -/
theorem reading (h : Lanes cfg e (p :: others) s pend rs)
    (hp : (∃ key, p = .reading key) ∨ (∃ key, p = .searching key) ∨
      (∃ res, p = .returned res) ∨ ∃ res, p = .answered res) :
    Lanes cfg (p.step cfg e).1 ((p.step cfg e).2 :: others) s pend rs := by
  rcases hp with ⟨key, rfl⟩ | ⟨key, rfl⟩ | ⟨res, rfl⟩ | ⟨res, rfl⟩
  · simp only [Phase.step]
    rw [if_neg (by simp [h.shared.isOpen])]
    by_cases hkey : key = []
    · rw [if_pos hkey]
      exact h.idle trivial rfl rfl rfl rfl rfl
    rw [if_neg hkey]
    cases e.memtable.get key with
    | ok v => exact h.idle trivial rfl rfl rfl rfl rfl
    | error err => exact h.idle trivial rfl rfl rfl rfl rfl
  · exact h.idle trivial rfl rfl rfl rfl rfl
  · exact h
  · exact h

/-- **A polite step keeps the lanes.** -/
theorem step (hcfg : cfg.Reliable) (h : Lanes cfg e (p :: others) s pend rs)
    (hp : p.Polite e others) :
    ∃ s' pend', Lanes cfg (p.step cfg e).1 ((p.step cfg e).2 :: others) s' pend'
        (rs ++ p.appended cfg e) ∧ Moves p (s.plus pend) (s'.plus pend') := by
  cases p with
  | appending io op key value => exact ⟨s, pend, h.appending hcfg, Keeps.refl _⟩
  | storing io op key value seq =>
      exact ⟨s.write key (storedVersion op value seq), pend, (h.storing hp).unlogged rfl, rfl⟩
  | checking io ret => exact ⟨s, pend, h.checking.unlogged rfl, Keeps.refl _⟩
  | draining io ret =>
      obtain ⟨s', pend', h', hkeeps⟩ := h.draining hp
      exact ⟨s', pend', h'.unlogged rfl, hkeeps⟩
  | building io ret records =>
      exact ⟨s, pend, (h.building hcfg).unlogged rfl, Keeps.refl _⟩
  | installing io ret records rd =>
      obtain ⟨s', pend', h', hplus⟩ := h.installing hp
      refine ⟨s', pend', h'.unlogged rfl, ?_⟩
      rw [hplus]
      exact Keeps.refl _
  | listing io ret => exact ⟨s, pend, (h.listing hp).unlogged rfl, Keeps.refl _⟩
  | merging io ret paths => exact ⟨s, pend, (h.merging hcfg).unlogged rfl, Keeps.refl _⟩
  | swapping io ret paths rd =>
      obtain ⟨s', h', hkeeps⟩ := h.swapping
      exact ⟨s', pend, h'.unlogged rfl, hkeeps⟩
  | removing io ret i ps => exact ⟨s, pend, h.removing.unlogged rfl, Keeps.refl _⟩
  | reading key =>
      exact ⟨s, pend, (h.reading (Or.inl ⟨key, rfl⟩)).unlogged rfl, Keeps.refl _⟩
  | searching key =>
      exact ⟨s, pend, (h.reading (Or.inr (Or.inl ⟨key, rfl⟩))).unlogged rfl, Keeps.refl _⟩
  | returned res =>
      exact ⟨s, pend, (h.reading (Or.inr (Or.inr (Or.inl ⟨res, rfl⟩)))).unlogged rfl,
        Keeps.refl _⟩
  | answered res =>
      exact ⟨s, pend, (h.reading (Or.inr (Or.inr (Or.inr ⟨res, rfl⟩)))).unlogged rfl,
        Keeps.refl _⟩

/-- **A polite step of a thread.** -/
theorem tick (hcfg : cfg.Reliable) {t : Threads cfg} {i : Nat}
    (h : Lanes cfg t.engine t.phases s pend rs) (hi : t.phases[i]? = some p)
    (hp : t.Polite i) :
    ∃ s' pend', Lanes cfg (t.tick i).engine (t.tick i).phases s' pend'
        (rs ++ t.appended i) ∧ Moves p (s.plus pend) (s'.plus pend') := by
  obtain ⟨hengine, hperm⟩ := Threads.tick_perm hi
  obtain ⟨s', pend', h', hmoves⟩ := (h.perm (Threads.perm_of_get hi)).step hcfg (hp p hi)
  refine ⟨s', pend', ?_, hmoves⟩
  rw [hengine, Threads.appended, hi]
  exact h'.perm hperm.symm

end Lanes

end VaultKV
