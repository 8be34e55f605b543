import VaultKV.Engine.Errors
import VaultKV.Engine.Store
import VaultKV.Lib.Renumber

/-!
# Engine — a write the peers refuse

`Set` and `Delete` append to the log BEFORE they ask the peers, and nothing
takes the record back: a refused write is in the log and not in the
memtable. In the process that made it no read finds it. The next `Open`
replays it.

`refused_write_unseen` compares the run with the refused call and the run
without it. The two stores differ by one record of the log and, behind it,
by the NUMBERS of the versions (`Store.Beside`); no answer depends on
those. A replay keeps the two beside each other when the key of the
refused record has been logged again.
-/

namespace VaultKV

open Lib

/-! ## Other numbers -/

/-- The record under another number. -/
def WalRecord.renumber (g : Nat → Nat) (r : WalRecord) : WalRecord := { r with seq := g r.seq }

theorem WalRecord.version?_renumber (g : Nat → Nat) (r : WalRecord) :
    (r.renumber g).version? = r.version?.map (Version.renumber g) := by
  unfold WalRecord.version? WalRecord.renumber
  cases r.op <;> rfl

/-- The weight of a table does not count the numbers. -/
theorem tableWeight_renumber (g : Nat → Nat) (t : Table Bytes Bytes) :
    tableWeight (Table.renumber g t) = tableWeight t := by
  rw [tableWeight, tableWeight, Table.renumber, SortedMap.map, List.map_map]
  rfl

section

variable {g : Nat → Nat}

theorem entries_renumber_eq_nil {t : Table Bytes Bytes} :
    (Table.renumber g t).entries = [] ↔ t.entries = [] := List.map_eq_nil_iff

theorem Lsm.compactable_renumber (hg : StrictMono g) (s : Lsm Bytes Bytes) :
    Lsm.Compactable (s.renumber g) ↔ Lsm.Compactable s := by
  unfold Lsm.Compactable
  rw [Lsm.merged_renumber hg, Lsm.live_renumber, Ne, entries_renumber_eq_nil, Lsm.renumber,
    List.length_map]

theorem Lsm.settled_renumber (hg : StrictMono g) (s : Lsm Bytes Bytes) :
    Lsm.settled (s.renumber g) = (Lsm.settled s).renumber g := by
  unfold Lsm.settled
  by_cases hc : Lsm.Compactable s
  · rw [if_pos hc, if_pos ((Lsm.compactable_renumber hg s).mpr hc), Lsm.renumber_compact hg]
  · rw [if_neg hc, if_neg fun h => hc ((Lsm.compactable_renumber hg s).mp h)]

theorem Lsm.flushed_renumber (hg : StrictMono g) (s : Lsm Bytes Bytes) :
    Lsm.flushed (s.renumber g) = (Lsm.flushed s).renumber g := by
  have hmem : (s.renumber g).mem.entries = [] ↔ s.mem.entries = [] := entries_renumber_eq_nil
  unfold Lsm.flushed
  by_cases hnil : s.mem.entries = []
  · rw [if_pos hnil, if_pos (hmem.mpr hnil)]
  · rw [if_neg hnil, if_neg fun h => hnil (hmem.mp h), ← Lsm.renumber_flush,
      Lsm.settled_renumber hg]

/-- **A replay of renumbered records** gives the renumbered table. -/
theorem table_replayed_renumber (rs : List WalRecord) :
    ∀ {m m' : MemTable}, m'.table = Table.renumber g m.table →
      (replayed (rs.map (WalRecord.renumber g)) m').table
        = Table.renumber g (replayed rs m).table := by
  induction rs with
  | nil =>
      intro m m' h
      exact h
  | cons r rs ih =>
      intro m m' h
      rw [replayed, replayed, List.map_cons, List.foldl_cons, List.foldl_cons,
        WalRecord.version?_renumber]
      cases r.version? with
      | none => exact ih h
      | some v =>
          refine ih ?_
          show (m'.put r.key (v.renumber g)).table = _
          rw [MemTable.table_put, MemTable.table_put, h]
          exact (SortedMap.map_insert _ _ _ _).symm

end

theorem replayed_append (rs rs' : List WalRecord) (m : MemTable) :
    replayed (rs ++ rs') m = replayed rs' (replayed rs m) := List.foldl_append

/-- A record whose key is written again later leaves nothing in the table. -/
theorem table_replayed_cons {r : WalRecord} {post : List WalRecord} (hw : Writes post)
    (hagain : ∃ x ∈ post, x.key = r.key) (m : MemTable) :
    (replayed (r :: post) m).table = (replayed post m).table := by
  rw [replayed, List.foldl_cons]
  cases r.version? with
  | none => rfl
  | some v =>
      refine SortedMap.ext_find fun k => find_replayed_congr post hw ?_
      by_cases hk : k = r.key
      · exact Or.inl (hk ▸ hagain)
      · right
        show (m.put r.key v).table.find k = _
        rw [MemTable.table_put, SortedMap.find_insert, if_neg hk]

/-! ## Two runs -/

/-- The step reads the log back into the memtable. -/
def Act.Replays {c : Cipher} (isOpen : Bool) : Act c → Prop
  | .reopen _ => isOpen = false
  | .restart _ => True
  | _ => False

instance {c : Cipher} (isOpen : Bool) : (a : Act c) → Decidable (a.Replays isOpen)
  | .reopen _ => inferInstanceAs (Decidable (isOpen = false))
  | .restart _ => isTrue trivial
  | .op _ => isFalse id
  | .close _ => isFalse id

/-- **The left store has one record more**, `r`; the records behind it and
the versions in the tree have their numbers moved up by one. -/
structure Store.Beside (pre : List WalRecord) (r : WalRecord) (post : List WalRecord)
    (left right : Store) : Prop where
  isOpen : left.isOpen = right.isOpen
  tree : left.tree = right.tree.renumber (skip pre.length)
  leftLog : left.log = pre ++ r :: post.map (WalRecord.renumber (skip pre.length))
  rightLog : right.log = pre ++ post
  early : ∀ x ∈ pre, x.seq ≤ pre.length
  writes : Writes post

namespace Store.Beside

variable {cfg : Config} {pre post : List WalRecord} {r : WalRecord} {left right : Store}

theorem length_log (h : Beside pre r post left right) :
    left.log.length = right.log.length + 1 ∧ pre.length < right.log.length + 1 := by
  rw [h.leftLog, h.rightLog]
  simp only [List.length_append, List.length_cons, List.length_map]
  omega

/-- The number of the next record on the left, from the one on the right. -/
theorem next_seq (h : Beside pre r post left right) :
    left.log.length + 1 = skip pre.length (right.log.length + 1) := by
  rw [skip_of_lt h.length_log.2, h.length_log.1]

theorem logBytes (h : Beside pre r post left right) :
    left.logBytes = right.logBytes + r.size := by
  have hsize : (WalRecord.size ∘ WalRecord.renumber (skip pre.length)) = WalRecord.size := rfl
  rw [Store.logBytes, Store.logBytes, h.leftLog, h.rightLog]
  simp only [List.map_append, List.map_cons, List.map_map, hsize, List.sum_append,
    List.sum_cons]
  omega

theorem full_iff (cfg : Config) (h : Beside pre r post left right) :
    left.Full cfg ↔ right.Full cfg := by
  have hmem : tableWeight left.tree.mem = tableWeight right.tree.mem := by
    rw [h.tree]
    exact tableWeight_renumber _ _
  unfold Store.Full
  rw [hmem]

/-- A write that fits the right log, and the refused record with it. -/
theorem takes_iff (h : Beside pre r post left right) {key value : Bytes}
    (hroom : right.Takes cfg key value →
      right.logBytes + (59 + (key.length + value.length)) + r.size
        ≤ cfg.opts.walSegmentSizeBytes) :
    left.Takes cfg key value ↔ right.Takes cfg key value := by
  have hbytes := h.logBytes
  constructor
  · rintro ⟨hopen, hkey, hk, hv, hfit⟩
    exact ⟨h.isOpen ▸ hopen, hkey, hk, hv, by omega⟩
  · intro ht
    have hfit := hroom ht
    obtain ⟨hopen, hkey, hk, hv, -⟩ := ht
    exact ⟨h.isOpen.trans hopen, hkey, hk, hv, by omega⟩

/-! ### Steps -/

theorem append (h : Beside pre r post left right) {op : WalOp}
    (hop : op = .kSet ∨ op = .kDelete) (ts : Nat) {key : Bytes} (hkey : key ≠ [])
    (value : Bytes) :
    Beside pre r (post ++ [⟨op, right.log.length + 1, ts % 2 ^ 64, key, value⟩])
      (left.append op ts key value) (right.append op ts key value) := by
  refine ⟨h.isOpen, h.tree, ?_, ?_, h.early, ?_⟩
  · rw [Store.append, h.next_seq, h.leftLog, List.map_append, List.append_assoc,
      List.cons_append]
    rfl
  · rw [Store.append, h.rightLog, List.append_assoc]
  · intro x hx
    rcases List.mem_append.mp hx with hx | hx
    · exact h.writes x hx
    · obtain rfl := List.mem_singleton.mp hx
      exact ⟨hkey, hop⟩

theorem put (h : Beside pre r post left right) (key value : Bytes) (dead : Bool) {i j : Nat}
    (hij : i = skip pre.length j) :
    Beside pre r post (left.put key ⟨value, i, dead⟩) (right.put key ⟨value, j, dead⟩) := by
  refine ⟨h.isOpen, ?_, h.leftLog, h.rightLog, h.early, h.writes⟩
  rw [Store.put, Store.put, Lsm.renumber_write, h.tree, hij]
  rfl

theorem flush (h : Beside pre r post left right) : Beside pre r post left.flush right.flush := by
  unfold Store.flush
  by_cases hclosed : right.isOpen = false
  · rw [if_pos hclosed, if_pos (h.isOpen.trans hclosed)]
    exact h
  · rw [if_neg hclosed, if_neg fun hl => hclosed (h.isOpen.symm.trans hl)]
    refine ⟨h.isOpen, ?_, h.leftLog, h.rightLog, h.early, h.writes⟩
    show Lsm.flushed left.tree = _
    rw [h.tree, Lsm.flushed_renumber (skip_strictMono _)]

theorem compact (h : Beside pre r post left right) :
    Beside pre r post left.compact right.compact := by
  refine ⟨h.isOpen, ?_, h.leftLog, h.rightLog, h.early, h.writes⟩
  show Lsm.settled left.tree = _
  rw [h.tree, Lsm.settled_renumber (skip_strictMono _)]
  rfl

/-- **A replay** on both sides, when the key of the record has been logged
again. -/
theorem reopen (h : Beside pre r post left right) (hagain : ∃ x ∈ post, x.key = r.key) :
    Beside pre r post left.reopen right.reopen := by
  refine ⟨rfl, ?_, h.leftLog, h.rightLog, h.early, h.writes⟩
  have hpre : pre.map (WalRecord.renumber (skip pre.length)) = pre :=
    (List.map_congr_left fun x hx => by
      rw [WalRecord.renumber, skip_of_le (h.early x hx)]
      rfl).trans (List.map_id pre)
  have hwrites : Writes (post.map (WalRecord.renumber (skip pre.length))) := by
    intro x hx
    obtain ⟨y, hy, rfl⟩ := List.mem_map.mp hx
    exact h.writes y hy
  have hagain' : ∃ x ∈ post.map (WalRecord.renumber (skip pre.length)), x.key = r.key := by
    obtain ⟨x, hx, hkey⟩ := hagain
    exact ⟨_, List.mem_map_of_mem hx, hkey⟩
  have hmem : (replayed left.log { memoryBudgetBytes := 0 }).table
      = Table.renumber (skip pre.length) (replayed right.log { memoryBudgetBytes := 0 }).table := by
    have hempty : ({ memoryBudgetBytes := 0 } : MemTable).table
        = Table.renumber (skip pre.length) ({ memoryBudgetBytes := 0 } : MemTable).table := rfl
    rw [← table_replayed_renumber right.log hempty, h.leftLog, h.rightLog, List.map_append,
      hpre, replayed_append, replayed_append, table_replayed_cons hwrites hagain']
  show Lsm.reopened left.log left.tree = _
  rw [Lsm.reopened, hmem, h.tree]
  rfl

theorem set (h : Beside pre r post left right) {io : WriteIo cfg.cipher} {key value : Bytes}
    (htakes : left.Takes cfg key value ↔ right.Takes cfg key value) :
    Beside pre r (post ++ right.logs cfg (.op (.set io key value)))
      (left.set cfg io key value) (right.set cfg io key value) := by
  rw [Store.logs, Store.set, Store.set]
  by_cases ht : right.Takes cfg key value
  · rw [if_pos ht, if_pos ht, if_pos (htakes.mpr ht)]
    have hlogged := h.append (Or.inl rfl) io.ts ht.2.1 value
    dsimp only
    by_cases hrepl : (Engine.replicate cfg io.calls).isOk = true
    · have hput := hlogged.put key value false h.next_seq
      have hsame := hput.full_iff cfg
      rw [if_pos hrepl, if_pos hrepl]
      split
      · next hfull =>
        rw [if_pos (hsame.mp hfull)]
        exact hput.flush
      · next hfull =>
        rw [if_neg fun hr => hfull (hsame.mpr hr)]
        exact hput
    · rw [if_neg hrepl, if_neg hrepl]
      exact hlogged
  · rw [if_neg ht, if_neg ht, if_neg fun hl => ht (htakes.mp hl), List.append_nil]
    exact h

theorem delete (h : Beside pre r post left right) {io : WriteIo cfg.cipher} {key : Bytes}
    (htakes : left.Takes cfg key [] ↔ right.Takes cfg key []) :
    Beside pre r (post ++ right.logs cfg (.op (.delete io key)))
      (left.delete cfg io key) (right.delete cfg io key) := by
  rw [Store.logs, Store.delete, Store.delete]
  by_cases ht : right.Takes cfg key []
  · rw [if_pos ht, if_pos ht, if_pos (htakes.mpr ht)]
    have hlogged := h.append (Or.inr rfl) io.ts ht.2.1 []
    dsimp only
    by_cases hrepl : (Engine.replicate cfg io.calls).isOk = true
    · rw [if_pos hrepl, if_pos hrepl]
      exact hlogged.put key [] true h.next_seq
    · rw [if_neg hrepl, if_neg hrepl]
      exact hlogged
  · rw [if_neg ht, if_neg ht, if_neg fun hl => ht (htakes.mp hl), List.append_nil]
    exact h

/-- What the right log holds after a write it takes. -/
theorem room_of_logs {a : Act cfg.cipher} {x : WalRecord} {n : Nat}
    (hlogs : right.logs cfg a = [x]) (hroom : (right.act cfg a).logBytes + n
      ≤ cfg.opts.walSegmentSizeBytes) :
    right.logBytes + x.size + n ≤ cfg.opts.walSegmentSizeBytes := by
  rw [Store.logBytes_act, hlogs] at hroom
  exact hroom

/-- **One step** on both sides. -/
theorem act (h : Beside pre r post left right) (a : Act cfg.cipher)
    (hroom : (right.act cfg a).logBytes + r.size ≤ cfg.opts.walSegmentSizeBytes)
    (hagain : a.Replays right.isOpen → ∃ x ∈ post, x.key = r.key) :
    Beside pre r (post ++ right.logs cfg a) (left.act cfg a) (right.act cfg a) := by
  have hnone : ∀ {l r' : Store}, Beside pre r post l r' → Beside pre r (post ++ []) l r' :=
    fun h' => (List.append_nil post).symm ▸ h'
  cases a with
  | close io => exact hnone ⟨rfl, h.tree, h.leftLog, h.rightLog, h.early, h.writes⟩
  | restart io => exact hnone (h.reopen (hagain trivial))
  | reopen io =>
      refine hnone ?_
      rw [Store.act, Store.act]
      by_cases hopen : right.isOpen = true
      · rw [if_pos hopen, if_pos (h.isOpen.trans hopen)]
        exact h
      · have hclosed : right.isOpen = false := by simpa using hopen
        rw [if_neg hopen, if_neg fun hl => hopen (h.isOpen.symm.trans hl)]
        exact h.reopen (hagain hclosed)
  | op o =>
      cases o with
      | set io key value =>
          refine h.set (h.takes_iff fun ht => ?_)
          have hlogs : right.logs cfg (.op (.set io key value)) = [_] := if_pos ht
          exact room_of_logs hlogs hroom
      | delete io key =>
          refine h.delete (h.takes_iff fun ht => ?_)
          have hlogs : right.logs cfg (.op (.delete io key)) = [_] := if_pos ht
          exact room_of_logs hlogs hroom
      | flush io => exact hnone h.flush
      | compact io => exact hnone h.compact

end Store.Beside

/-! ## The engines -/

/-- The key a write is for. -/
def Op.key {c : Cipher} : Op c → Bytes
  | .set _ key _ => key
  | .delete _ key => key
  | _ => []

/-- What the record of a write takes in the log. -/
def Op.recordBytes {c : Cipher} : Op c → Nat
  | .set _ key value => 59 + (key.length + value.length)
  | .delete _ key => 59 + key.length
  | _ => 0

namespace Engine

variable (cfg : Config)

/-- The call returns `NoQuorum`. -/
def Refused (op : Op cfg.cipher) (e : Engine) : Prop :=
  ∃ err, (e.step cfg op).1 = .error err ∧ err.code? = some .kNoQuorum

/-- The step puts a record of the key into the log. -/
def LogsKey (key : Bytes) (a : Act cfg.cipher) (e : Engine) : Prop :=
  match a with
  | .op o => (e.logged cfg o).map Prod.fst = some key
  | _ => False

instance (key : Bytes) (a : Act cfg.cipher) (e : Engine) : Decidable (e.LogsKey cfg key a) := by
  unfold LogsKey
  cases a <;> infer_instance

/-- **The key is logged before the next replay**, if there is one. -/
def LoggedFirst (key : Bytes) : List (Act cfg.cipher) → Engine → Prop
  | [], _ => True
  | a :: as, e =>
      ¬ a.Replays e.isOpen ∧ (e.LogsKey cfg key a ∨ LoggedFirst key as (e.act cfg a))

instance decidableLoggedFirst (key : Bytes) : (as : List (Act cfg.cipher)) → (e : Engine) →
    Decidable (e.LoggedFirst cfg key as)
  | [], _ => isTrue trivial
  | a :: as, e =>
      have := decidableLoggedFirst key as (e.act cfg a)
      inferInstanceAs (Decidable (_ ∧ _))

/-- The bytes the records of the log file take. -/
def logLength (e : Engine) : Nat :=
  (recovered cfg.cipher cfg.opts.walSegmentSizeBytes
    (Wal.resize e.wal.segment cfg.opts.walSegmentSizeBytes)).2

end Engine

namespace Engine.Stands

variable {cfg : Config} {width : Nat} {used : List Nat} {e : Engine} {st : Store}

theorem logLength (h : e.Stands cfg width used st) : e.logLength cfg = st.logBytes :=
  congrArg Prod.snd h.ranked.kept.disk.recovered

theorem exists_logs (hcfg : cfg.Opens) (h : e.Stands cfg width used st) {key : Bytes}
    {a : Act cfg.cipher} (hlogs : e.LogsKey cfg key a) : ∃ x ∈ st.logs cfg a, x.key = key := by
  have htakes : ∀ {io : WriteIo cfg.cipher} {op : WalOp} {k v : Bytes},
      (e.logWrite cfg io op k v).1.isOk = true → st.Takes cfg k v := by
    intro io op k v hok
    rcases hlog : e.logWrite cfg io op k v with ⟨res, e'⟩
    rw [hlog] at hok
    cases res with
    | error err => cases hok
    | ok seq => exact (h.takes_of_logWrite hcfg hlog).1
  cases a with
  | close io => cases hlogs
  | reopen io => cases hlogs
  | restart io => cases hlogs
  | op o =>
      cases o with
      | set io k v =>
          rw [Engine.LogsKey, Engine.logged] at hlogs
          split at hlogs
          · next hok =>
            rw [Store.logs, if_pos (htakes hok)]
            exact ⟨_, List.mem_singleton_self _, Option.some.inj hlogs⟩
          · cases hlogs
      | delete io k =>
          rw [Engine.LogsKey, Engine.logged] at hlogs
          split at hlogs
          · next hok =>
            rw [Store.logs, if_pos (htakes hok)]
            exact ⟨_, List.mem_singleton_self _, Option.some.inj hlogs⟩
          · cases hlogs
      | flush io => cases hlogs
      | compact io => cases hlogs

/-- **A refused call** changes the log and nothing else. -/
theorem refused (hcfg : cfg.Opens) (h : e.Stands cfg width used st) {op : Op cfg.cipher}
    (hrefused : e.Refused cfg op) :
    ∃ r, st.act cfg (.op op) = { st with log := st.log ++ [r] } ∧ r.key = op.key ∧
      r.size = op.recordBytes := by
  obtain ⟨err, hres, hcode⟩ := hrefused
  cases op with
  | set io key value =>
      obtain ⟨⟨seq, hok⟩, hrepl⟩ := set_noQuorum hres hcode
      obtain ⟨htakes, -⟩ := h.takes_of_logWrite hcfg (Prod.ext hok rfl)
      refine ⟨⟨.kSet, st.log.length + 1, io.ts % 2 ^ 64, key, value⟩, ?_, rfl, rfl⟩
      show st.set cfg io key value = _
      rw [Store.set, if_pos htakes, hrepl]
      rfl
  | delete io key =>
      obtain ⟨⟨seq, hok⟩, hrepl⟩ := delete_noQuorum hres hcode
      obtain ⟨htakes, -⟩ := h.takes_of_logWrite hcfg (Prod.ext hok rfl)
      refine ⟨⟨.kDelete, st.log.length + 1, io.ts % 2 ^ 64, key, []⟩, ?_, rfl, rfl⟩
      show st.delete cfg io key = _
      rw [Store.delete, if_pos htakes, hrepl]
      rfl
  | flush io =>
      have hlocal : err.Local False := flushMemTable_local False.elim False.elim hres
      exact absurd hcode hlocal.own
  | compact io =>
      have hlocal : err.Local False := maybeCompact_local False.elim hres
      exact absurd hcode hlocal.own

/-- Right after the call the two stores are beside each other. -/
theorem beside (h : e.Stands cfg width used st) (r : WalRecord) :
    Store.Beside st.log r [] { st with log := st.log ++ [r] } st := by
  have hearly : ∀ x ∈ st.log, x.seq ≤ st.log.length := by
    intro x hx
    have hmem : x.seq ∈ st.log.map WalRecord.seq := List.mem_map_of_mem hx
    rw [h.ranked.kept.disk.seqs, List.mem_range'_1] at hmem
    omega
  refine ⟨rfl, (Lsm.renumber_eq_self ?_).symm, rfl, (List.append_nil _).symm, hearly,
    fun x hx => by cases hx⟩
  refine h.ranked.logged.imp fun k v ⟨x, hx, _, hv⟩ => skip_of_le ?_
  rw [(WalRecord.version?_spec hv).1]
  exact hearly x hx

/-- Engines beside each other answer alike. -/
theorem get_eq_of_beside {e' : Engine} {used' : List Nat} {st' : Store}
    {pre post : List WalRecord} {r : WalRecord} (h : e.Stands cfg width used st)
    (h' : e'.Stands cfg width used' st') (hbeside : Store.Beside pre r post st st')
    (k : Bytes) : e.get cfg k = e'.get cfg k := by
  have hsame : e.isOpen = e'.isOpen := (h.isOpen.trans hbeside.isOpen).trans h'.isOpen.symm
  by_cases hopen : e'.isOpen = true
  · by_cases hk : k = []
    · rw [Engine.get, Engine.get, hsame, if_pos hk, if_pos hk]
    · rw [h.ranked.rep.get_eq (hsame.trans hopen) hk, h'.ranked.rep.get_eq hopen hk,
        hbeside.tree, Lsm.search_path_renumber]
      cases search st'.tree.path k <;> rfl
  · have hclosed : e'.isOpen = false := by simpa using hopen
    rw [Engine.get, Engine.get, if_pos hclosed, if_pos (hsame.trans hclosed)]

end Engine.Stands

/-- **Whole runs** on both sides. -/
theorem Store.Beside.actAll {cfg : Config} (hcfg : cfg.Opens) {width : Nat}
    {pre : List WalRecord} {r : WalRecord} (acts : List (Act cfg.cipher)) :
    ∀ {e : Engine} {used : List Nat} {left right : Store} {post : List WalRecord},
      e.Stands cfg width used right → Store.Beside pre r post left right →
      e.Quiet cfg acts → Ticks width used (e.readings cfg acts) →
      (right.actAll cfg acts).logBytes + r.size ≤ cfg.opts.walSegmentSizeBytes →
      ((∃ x ∈ post, x.key = r.key) ∨ e.LoggedFirst cfg r.key acts) →
      ∃ post', Store.Beside pre r post' (left.actAll cfg acts) (right.actAll cfg acts) := by
  induction acts with
  | nil =>
      intro e used left right post _ h _ _ _ _
      exact ⟨post, h⟩
  | cons a acts ih =>
      intro e used left right post hst h hquiet hticks hroom hfirst
      rw [Engine.readings] at hticks
      have hst' := hst.act hcfg hquiet.1 hticks.take
      have hgrows := Store.logBytes_le_actAll cfg acts (right.act cfg a)
      have hstep : (right.act cfg a).logBytes + r.size ≤ cfg.opts.walSegmentSizeBytes := by
        rw [Store.actAll] at hroom
        omega
      -- once the key is logged again a replay changes nothing any more
      rcases hfirst with ⟨x, hx, hkey⟩ | ⟨hno, hfirst⟩
      · exact ih hst' (h.act a hstep fun _ => ⟨x, hx, hkey⟩) hquiet.2 hticks.drop hroom
          (Or.inl ⟨x, List.mem_append_left _ hx, hkey⟩)
      · rw [hst.isOpen] at hno
        refine ih hst' (h.act a hstep fun hrep => absurd hrep hno) hquiet.2 hticks.drop hroom ?_
        rcases hfirst with hlogs | hrest
        · obtain ⟨x, hx, hkey⟩ := hst.exists_logs hcfg hlogs
          exact Or.inl ⟨x, List.mem_append_right _ hx, hkey⟩
        · exact Or.inr hrest

/-- **When a refused write has no effect.** In every state reached from an
empty directory without an I/O failure, for every `Set` or `Delete` that
returns `NoQuorum` there and every run that continues: every read answers
as in the run without the call, if the key of the call is logged again
before the log is next replayed, and the log has room for the records of
that run and the refused one. -/
theorem refused_write_unseen {cfg : Config} (hcfg : cfg.Reliable) {io : OpenIo} {e : Engine}
    (hopen : (Engine.fresh cfg).open cfg io = (.ok 0, e)) {before after : List (Act cfg.cipher)}
    {op : Op cfg.cipher} (hwith : e.Quiet cfg (before ++ .op op :: after))
    (hwithout : e.Quiet cfg (before ++ after)) {width : Nat}
    (hclock : Ticks width [] (e.readings cfg (before ++ .op op :: after)))
    (hclock' : Ticks width [] (e.readings cfg (before ++ after)))
    (hrefused : (e.actAll cfg before).Refused cfg op)
    (hfirst : (e.actAll cfg before).LoggedFirst cfg op.key after)
    (hroom : (e.actAll cfg (before ++ after)).logLength cfg + op.recordBytes
      ≤ cfg.opts.walSegmentSizeBytes) (k : Bytes) :
    (e.actAll cfg (before ++ .op op :: after)).get cfg k
      = (e.actAll cfg (before ++ after)).get cfg k := by
  obtain ⟨hopens, h₀⟩ := stands_of_open hcfg hopen width
  rw [Engine.quiet_append] at hwith hwithout
  rw [Engine.readings_append] at hclock hclock'
  rw [Engine.actAll_append] at hroom ⊢
  rw [Engine.actAll_append]
  have h := h₀.actAll hopens before hwith.1 hclock.take
  obtain ⟨r, hact, hkey, hsize⟩ := h.refused hopens hrefused
  have hleft := h.actAll hopens (.op op :: after) hwith.2 hclock.drop
  have hright := h.actAll hopens after hwithout.2 hclock'.drop
  rw [Store.actAll, hact] at hleft
  rw [hright.logLength, ← hsize] at hroom
  rw [← hkey] at hfirst
  obtain ⟨post, hbeside⟩ := Store.Beside.actAll hopens after h (h.beside r) hwithout.2
    hclock'.drop hroom (Or.inr hfirst)
  exact hleft.get_eq_of_beside hright hbeside k

/-- A leader with one peer. -/
def leaderConfig : Config :=
  { smallConfig 4096 with
    opts := { (smallConfig 4096).opts with enableReplication := true, quorumSize := 2 }
    transport := true }

namespace Leader

/-- The peer takes the record at once, or refuses it. -/
def set (acks : Bool) (k v : UInt8) : Op leaderConfig.cipher :=
  .set { WriteIo.quiet (0 : Nat) with calls := [⟨0, acks, 0⟩] } [k] [v]

def opened : Engine := ((Engine.fresh leaderConfig).open leaderConfig {}).2

/-- The refused key is written again, and the next process replays both. -/
def writtenAgain : List (Act leaderConfig.cipher) := [.op (set true 97 2), .close {}, .restart {}]

theorem overwritten_refusal :
    (opened.actAll leaderConfig ([] ++ .op (set false 97 1) :: writtenAgain)).get
        leaderConfig [97]
      = (opened.actAll leaderConfig ([] ++ writtenAgain)).get leaderConfig [97] := by
  have hopened : (Engine.fresh leaderConfig).open leaderConfig {} = (.ok 0, opened) :=
    Prod.ext (by decide +kernel) rfl
  have hopen : OpenIo.Clean {} := ⟨rfl, rfl, rfl, rfl, rfl, fun _ => rfl, fun _ => rfl⟩
  have hquiet : opened.Quiet leaderConfig writtenAgain :=
    ⟨⟨FlushIo.quiet_clean _, by decide +kernel⟩, trivial, hopen, trivial⟩
  have hquiet' : opened.Quiet leaderConfig (.op (set false 97 1) :: writtenAgain) :=
    ⟨⟨FlushIo.quiet_clean _, by decide +kernel⟩, ⟨FlushIo.quiet_clean _, by decide +kernel⟩,
      trivial, hopen, trivial⟩
  have hrefused : opened.Refused leaderConfig (set false 97 1) :=
    ⟨Status.noQuorum "quorum not reached", by decide +kernel, rfl⟩
  exact @refused_write_unseen leaderConfig
    ⟨fallback_lawful zeroKey, fallback_encrypt_isSome zeroKey⟩ {} opened hopened [] writtenAgain
    (set false 97 1) hquiet' hquiet 1 (by decide +kernel) (by decide +kernel) hrefused
    (by decide +kernel) (by decide +kernel) [97]

/-- **A refused write comes back**: `Set` returns `NoQuorum` and the key is
not found; after `Close` and the next process's `Open` it is there, and
without the call it is not. -/
theorem refused_write_returns :
    (opened.step leaderConfig (set false 97 1)).1
      = .error (Status.noQuorum "quorum not reached") ∧
    (opened.actAll leaderConfig [.op (set false 97 1)]).get leaderConfig [97]
      = .error (Status.notFound "key not found") ∧
    (opened.actAll leaderConfig [.op (set false 97 1), .close {}, .restart {}]).get
      leaderConfig [97] = .ok [1] ∧
    (opened.actAll leaderConfig [.close {}, .restart {}]).get leaderConfig [97]
      = .error (Status.notFound "key not found") := by
  decide +kernel

end Leader

end VaultKV
