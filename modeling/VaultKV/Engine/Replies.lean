import VaultKV.Engine.Errors
import VaultKV.Engine.Store

/-!
# Engine — the size of replies

`TryParseFrames` refuses a payload of more than `kMaxPayloadBytes`, and
`EncodeFrame` writes one of any size. An acknowledgement and an error are
short, and a value that came in a SET frame leaves room for its own length;
the rows of a scan are put into ONE frame whatever they add up to.
`reply_one_frame_iff` says which replies a client can read.
-/

namespace VaultKV

open Lib

/-! ## Frames that can be read -/

/-- The bytes are cut into one frame with nothing left over. -/
def OneFrame (bytes : Bytes) : Prop := ∃ f, tryParseFrames bytes = (none, [f], [])

theorem splits_nil {buf rest : Bytes} {stop : Option String}
    (h : frames.Splits buf [] rest stop) : rest = buf := by
  cases h with
  | more => rfl
  | bad => rfl

/-- **An encoded frame is read back as one frame** if its payload is not too
large. -/
theorem oneFrame_iff (f : Frame) :
    OneFrame f.bytes ↔ f.payload.length ≤ kMaxPayloadBytes := by
  constructor
  · rintro ⟨g, hg⟩
    obtain ⟨fs, rest, stop, hs⟩ := frames.exists_splits f.bytes
    rw [tryParseFrames_parses hs] at hg
    obtain ⟨rfl, hg⟩ := Prod.mk.inj hg
    obtain ⟨rfl, hrest⟩ := Prod.mk.inj hg
    obtain rfl : rest = [] := hrest
    cases hs with
    | frame hhead htail =>
        -- the one frame takes all bytes, so its length field covers the payload
        obtain ⟨rfl, -, hmax, -⟩ := frameHead_frame (p := f.bytes) hhead
        have hlen := List.drop_eq_nil_iff.mp (splits_nil htail).symm
        rw [length_bytes] at hlen
        omega
  · intro h
    have hs : frames.Splits ([f].flatMap Frame.bytes ++ []) [f] [] none :=
      splits_bytes (by simpa using h) frameHead_nil
    rw [List.flatMap_singleton, List.append_nil] at hs
    exact ⟨f, tryParseFrames_parses hs⟩

theorem splits_payload_le {buf rest : Bytes} {fs : List Frame} {stop : Option String}
    (h : frames.Splits buf fs rest stop) : ∀ f ∈ fs, f.payload.length ≤ kMaxPayloadBytes := by
  induction h with
  | more => intro f hf; cases hf
  | bad => intro f hf; cases hf
  | frame hhead _ ih =>
      intro f hf
      rcases List.mem_cons.mp hf with rfl | hf
      · obtain ⟨-, -, hmax, rfl⟩ := frameHead_frame hhead
        exact (List.length_take_le _ _).trans hmax
      · exact ih f hf

/-- The write came in a SET frame that was cut from a buffer and decoded. -/
def Accepted (key value : Bytes) : Prop :=
  ∃ buf, ∃ f ∈ (tryParseFrames buf).2.1,
    decodeCommand f = .ok { type := .set, key := key, value := value }

theorem length_slice_le (b : Bytes) (off n : Nat) : (slice b off n).length ≤ n :=
  List.length_take_le _ _

/-- What was decoded is part of the payload. -/
theorem decodeCommand_set_le {f : Frame} {key value : Bytes}
    (h : decodeCommand f = .ok { type := .set, key := key, value := value }) :
    6 + key.length + value.length ≤ f.payload.length := by
  unfold decodeCommand decodeCommand.decodeKey at h
  cases htype : f.type with
  | set =>
      rw [htype] at h
      dsimp only at h
      by_cases hshort : f.payload.length < 2 + 4
      · rw [if_pos hshort] at h; cases h
      rw [if_neg hshort] at h
      by_cases hcut : f.payload.length < 2 + readLe 2 f.payload + 4
      · rw [if_pos hcut] at h; cases h
      rw [if_neg hcut] at h
      by_cases hlen : f.payload.length
          ≠ 2 + readLe 2 f.payload + 4 + readLe 4 (f.payload.drop (2 + readLe 2 f.payload))
      · rw [if_pos hlen] at h; cases h
      rw [if_neg hlen] at h
      have hcmd := Except.ok.inj h
      have hkey := congrArg (fun c => c.key.length) hcmd
      have hvalue := congrArg (fun c => c.value.length) hcmd
      simp only [readBytes] at hkey hvalue
      have hk := length_slice_le f.payload 2 (readLe 2 f.payload)
      have hv := length_slice_le f.payload (2 + readLe 2 f.payload + 4)
        (readLe 4 (f.payload.drop (2 + readLe 2 f.payload)))
      omega
  | _ =>
      rw [htype] at h
      dsimp only at h
      repeat' split at h
      all_goals cases h

theorem Accepted.le {key value : Bytes} (h : Accepted key value) :
    6 + key.length + value.length ≤ kMaxPayloadBytes := by
  obtain ⟨buf, f, hf, hdecode⟩ := h
  obtain ⟨fs, rest, stop, hs⟩ := frames.exists_splits buf
  rw [tryParseFrames_parses hs] at hf
  exact (decodeCommand_set_le hdecode).trans (splits_payload_le hs f hf)

/-! ## Texts of errors -/

section

variable {cfg : Config} {e : Engine} {err : Err}

theorem replicate_fits {calls : List PeerCall}
    (h : Engine.replicate cfg calls = .error err) : err.Fits := by
  unfold Engine.replicate replicateToQuorum at h
  dsimp only at h
  repeat' split at h
  all_goals first
    | (cases h; decide)
    | cases h

theorem set_fits {io : WriteIo cfg.cipher} (hio : io.TextsFit) {key value : Bytes}
    (h : (e.set cfg io key value).1 = .error err) : err.Fits := by
  unfold Engine.set at h
  repeat' split at h
  all_goals first
    | (rename_i heq; cases h; exact (logWrite_local (congrArg Prod.fst heq)).fits hio)
    | (cases h; exact replicate_fits ‹_›)
    | exact (applySet_local WriteIo.TextsFit.flush WriteIo.TextsFit.compact h).fits hio

theorem delete_fits {io : WriteIo cfg.cipher} {key : Bytes}
    (h : (e.delete cfg io key).1 = .error err) : err.Fits := by
  unfold Engine.delete Engine.applyDelete MemTable.delete at h
  repeat' split at h
  all_goals first
    | (rename_i heq; cases h; exact (logWrite_local (congrArg Prod.fst heq)).fits trivial)
    | (cases h; exact replicate_fits ‹_›)
    | (cases h; decide)
    | cases h

theorem getTables_fits {c : Cipher} {dir : SortedMap Bytes Bytes} {key : Bytes}
    (rds : List SstableReader) : Engine.getTables c dir key rds = some (.error err) →
      err.Fits := by
  induction rds with
  | nil => intro h; cases h
  | cons rd rds ih =>
      intro h
      rw [Engine.getTables] at h
      split at h
      · unfold Engine.answerOf at h
        split at h
        · cases h; decide
        · cases h
      · exact ih h
      · next hno _ =>
        cases h
        cases err with
        | status s => exact absurd rfl (hno s)
        | exception x => trivial
        | outOfBounds => trivial

theorem get_fits {key : Bytes} (h : e.get cfg key = .error err) : err.Fits := by
  unfold Engine.get Engine.answerOf at h
  repeat' split at h
  all_goals first
    | (cases h; decide)
    | (cases h; exact getTables_fits _ ‹_›)
    | cases h

theorem scanPrefix_fits {start : Bytes} {limit : Nat}
    (h : e.scanPrefix cfg start limit = .error err) : err.Fits := by
  unfold Engine.scanPrefix at h
  dsimp only at h
  repeat' split at h
  all_goals first
    | (cases h; decide)
    | cases h

end

/-! ## Replies -/

/-- The payload that rows make. -/
def scanReplyBytes (rows : List (Bytes × Bytes)) : Nat :=
  2 + (rows.map fun r => 6 + r.1.length + r.2.length).sum

theorem length_encodeScanResult (rows : List (Bytes × Bytes)) :
    (encodeScanResult rows).payload.length = scanReplyBytes rows := by
  have hrow : ∀ r : Bytes × Bytes,
      (appendLe 2 r.1.length ++ (r.1 ++ (appendLe 4 r.2.length ++ r.2))).length
        = 6 + r.1.length + r.2.length := by
    intro r
    simp only [List.length_append, length_appendLe]
    omega
  simp only [encodeScanResult, scanReplyBytes, List.length_append, length_appendLe,
    List.length_flatMap, hrow]

namespace Engine

variable (cfg : Config)

/-- If the frame asks for a scan, the rows it finds fit one frame. -/
def ScanFits (frame : Frame) (e : Engine) : Prop :=
  ∀ cmd, decodeCommand frame = .ok cmd → cmd.type = .scan →
    ∀ rows, e.scanPrefix cfg cmd.start cmd.limit = .ok rows →
      scanReplyBytes rows ≤ kMaxPayloadBytes

/-- Every value a read can find fits one frame. -/
def ValuesFit (e : Engine) : Prop :=
  ∀ key value, e.get cfg key = .ok value → 4 + value.length ≤ kMaxPayloadBytes

end Engine

theorem decodeCommand_error_fits {frame : Frame} {msg : String}
    (h : decodeCommand frame = .error msg) :
    4 + (textBytes msg).length ≤ kMaxPayloadBytes := by
  unfold decodeCommand decodeCommand.decodeKey at h
  dsimp only at h
  repeat' split at h
  all_goals first
    | (cases h; decide)
    | cases h

theorem length_encodeError (code : Nat) (msg : Bytes) :
    (encodeError code msg).payload.length = 4 + msg.length := by
  simp only [encodeError, List.length_append, length_appendLe]
  omega

theorem errorReply_fits {err : Err} (h : err.Fits) {reply : Frame}
    (hreply : Engine.errorReply err = some reply) :
    reply.payload.length ≤ kMaxPayloadBytes := by
  cases err with
  | status s =>
      cases hreply
      rw [length_encodeError]
      exact h
  | exception x => cases hreply
  | outOfBounds => cases hreply

theorem ack_fits (seq : Nat) {msg : Bytes} (h : 10 + msg.length ≤ kMaxPayloadBytes) :
    (encodeAck seq msg).payload.length ≤ kMaxPayloadBytes := by
  simp only [encodeAck, List.length_append, length_appendLe]
  omega

theorem writeReply_fits {res : Res Nat} (h : ∀ err, res = .error err → err.Fits)
    {reply : Frame} (hreply : Engine.writeReply res = some reply) :
    reply.payload.length ≤ kMaxPayloadBytes := by
  cases res with
  | ok seq =>
      cases hreply
      exact ack_fits seq (by decide)
  | error err => exact errorReply_fits (h err rfl) hreply

/-- A reply to anything but a scan is short. -/
theorem Engine.ValuesFit.reply_short {cfg : Config} {e : Engine} (h : e.ValuesFit cfg)
    {io : WriteIo cfg.cipher} (hio : io.TextsFit) {frame reply : Frame} {cmd : Command}
    (hcmd : decodeCommand frame = .ok cmd) (hscan : cmd.type ≠ .scan)
    (hreply : (e.handleFrame cfg io frame).1 = some reply) :
    reply.payload.length ≤ kMaxPayloadBytes := by
  rw [Engine.handleFrame, hcmd] at hreply
  dsimp only at hreply
  cases htype : cmd.type with
  | scan => exact absurd htype hscan
  | ping =>
      rw [htype] at hreply
      cases hreply
      exact ack_fits _ (by decide)
  | set =>
      rw [htype] at hreply
      exact writeReply_fits (fun err => set_fits hio) hreply
  | del =>
      rw [htype] at hreply
      exact writeReply_fits (fun err => delete_fits) hreply
  | get =>
      rw [htype] at hreply
      dsimp only at hreply
      cases hget : e.get cfg cmd.key with
      | error err =>
          rw [hget] at hreply
          exact errorReply_fits (get_fits hget) hreply
      | ok v =>
          rw [hget] at hreply
          cases hreply
          have hv := h cmd.key v hget
          simp only [encodeValue, List.length_append, length_appendLe]
          exact hv
  | _ =>
      rw [htype] at hreply
      cases hreply
      rw [length_encodeError]
      decide

/-- **One reply**: only the rows of a scan can be too many. -/
theorem Engine.ValuesFit.reply {cfg : Config} {e : Engine} (h : e.ValuesFit cfg)
    {io : WriteIo cfg.cipher} (hio : io.TextsFit) {frame reply : Frame}
    (hreply : (e.handleFrame cfg io frame).1 = some reply) :
    reply.payload.length ≤ kMaxPayloadBytes ↔ e.ScanFits cfg frame := by
  cases hcmd : decodeCommand frame with
  | error msg =>
      rw [Engine.handleFrame, hcmd] at hreply
      cases hreply
      refine iff_of_true ?_ fun cmd h => by rw [hcmd] at h; cases h
      rw [length_encodeError]
      exact decodeCommand_error_fits hcmd
  | ok cmd =>
  have hsame : ∀ {cmd'}, decodeCommand frame = .ok cmd' → cmd = cmd' := fun h =>
    Except.ok.inj (hcmd.symm.trans h)
  by_cases hscan : cmd.type = .scan
  · rw [Engine.handleFrame, hcmd] at hreply
    dsimp only at hreply
    rw [hscan] at hreply
    dsimp only at hreply
    cases hrows : e.scanPrefix cfg cmd.start cmd.limit with
    | error err =>
        rw [hrows] at hreply
        refine iff_of_true (errorReply_fits (scanPrefix_fits hrows) hreply) ?_
        intro cmd' h' _ rows hok
        obtain rfl := hsame h'
        rw [hrows] at hok
        cases hok
    | ok rows =>
        rw [hrows] at hreply
        cases hreply
        rw [length_encodeScanResult]
        constructor
        · intro hle cmd' h' _ rows' hok
          obtain rfl := hsame h'
          rw [hrows] at hok
          cases hok
          exact hle
        · intro hfits
          exact hfits cmd hcmd hscan rows hrows
  · refine iff_of_true (h.reply_short hio hcmd hscan hreply) fun cmd' h' hs => ?_
    obtain rfl := hsame h'
    exact absurd hs hscan

/-! ## What was stored -/

/-- The sets in the log came in frames of a legal size. -/
def LogFits (rs : List WalRecord) : Prop :=
  ∀ r ∈ rs, r.op = .kSet → 6 + r.key.length + r.value.length ≤ kMaxPayloadBytes

/-- A step that sets a key does so for a SET frame. -/
def Act.Sent {c : Cipher} : Act c → Prop
  | .op (.set _ key value) => Accepted key value
  | _ => True

theorem Store.logFits_act {cfg : Config} {a : Act cfg.cipher} (hsent : a.Sent) {st : Store}
    (h : LogFits st.log) : LogFits (st.act cfg a).log := by
  rw [Store.log_act]
  intro r hr hop
  rcases List.mem_append.mp hr with hr | hr
  · exact h r hr hop
  cases a with
  | close io => cases hr
  | reopen io => cases hr
  | restart io => cases hr
  | op o =>
      cases o with
      | set io key value =>
          rw [Store.logs] at hr
          split at hr
          · obtain rfl := List.mem_singleton.mp hr
            exact Accepted.le hsent
          · cases hr
      | delete io key =>
          rw [Store.logs] at hr
          split at hr
          · obtain rfl := List.mem_singleton.mp hr
            cases hop
          · cases hr
      | flush io => cases hr
      | compact io => cases hr

theorem Store.logFits_actAll {cfg : Config} (acts : List (Act cfg.cipher)) :
    ∀ {st : Store}, (∀ a ∈ acts, a.Sent) → LogFits st.log → LogFits (st.actAll cfg acts).log := by
  induction acts with
  | nil =>
      intro st _ h
      exact h
  | cons a acts ih =>
      intro st hsent h
      exact ih (fun b hb => hsent b (List.mem_cons_of_mem _ hb))
        (Store.logFits_act (hsent a List.mem_cons_self) h)

/-- A value that was logged fits. -/
theorem Engine.Ranked.valuesFit {cfg : Config} {width : Nat} {used : List Nat} {e : Engine}
    {s : Lsm Bytes Bytes} {rs : List WalRecord} (h : e.Ranked cfg width used s rs)
    (hfits : LogFits rs) : e.ValuesFit cfg := by
  intro key value hget
  by_cases hopen : e.isOpen = false
  · rw [Engine.get, if_pos hopen] at hget; cases hget
  by_cases hkey : key = []
  · rw [Engine.get, if_neg hopen, if_pos hkey] at hget; cases hget
  rw [h.rep.get_eq (by simpa using hopen) hkey, search_eq_head] at hget
  cases hhead : (hits s.path key).head? with
  | none => rw [hhead] at hget; cases hget
  | some v =>
      rw [hhead] at hget
      obtain ⟨r, hr, -, hv⟩ := h.logged key v (List.mem_of_head? hhead)
      unfold WalRecord.version? at hv
      cases hop : r.op with
      | kSet =>
          rw [hop] at hv
          cases hv
          obtain rfl : r.value = value := Except.ok.inj hget
          have := hfits r hr hop
          omega
      | kDelete =>
          rw [hop] at hv
          cases hv
          cases hget
      | _ =>
          rw [hop] at hv
          cases hv

/-- **Which replies can be read.** In every state reached from an empty
directory without an I/O failure, whose values all came in SET frames: the
reply to a frame is one frame with nothing left over, except for a scan
whose rows do not fit `kMaxPayloadBytes`. -/
theorem reply_one_frame_iff {cfg : Config} (hcfg : cfg.Reliable) {openIo : OpenIo} {e : Engine}
    (hopen : (Engine.fresh cfg).open cfg openIo = (.ok 0, e)) {acts : List (Act cfg.cipher)}
    (hquiet : e.Quiet cfg acts) {width : Nat} (hclock : Ticks width [] (e.readings cfg acts))
    (hsent : ∀ a ∈ acts, a.Sent) {io : WriteIo cfg.cipher} (hio : io.TextsFit)
    {frame reply : Frame}
    (hreply : ((e.actAll cfg acts).handleFrame cfg io frame).1 = some reply) :
    OneFrame reply.bytes ↔ (e.actAll cfg acts).ScanFits cfg frame := by
  obtain ⟨hopens, h₀⟩ := stands_of_open hcfg hopen width
  have h := (h₀.actAll hopens acts hquiet hclock).ranked
  have hnone : LogFits Store.empty.log := fun r hr => by cases hr
  have hfits := Store.logFits_actAll acts hsent hnone
  rw [oneFrame_iff, (h.valuesFit hfits).reply hio hreply]

/-- A SET frame, and a SCAN of everything with the default limit. -/
def setFrame (key value : Bytes) : Frame := ⟨.set, 0, setPayload key value⟩

def scanFrame : Frame := ⟨.scan, 0, [0, 0, 0, 0]⟩

/-- What the one row makes is a frame that can be read. -/
theorem oneRow_reply :
    OneFrame (encodeScanResult [([97], [1])]).bytes := by
  have hreply : (((Small.opened 4096).actAll (smallConfig 4096)
      [.op (Small.set 4096 97 1)]).handleFrame (smallConfig 4096) (.quiet (0 : Nat))
        scanFrame).1 = some (encodeScanResult [([97], [1])]) := by decide +kernel
  have hquiet : (Small.opened 4096).Quiet (smallConfig 4096) [.op (Small.set 4096 97 1)] :=
    ⟨⟨FlushIo.quiet_clean _, by decide +kernel⟩, trivial⟩
  have hsent : Accepted [97] [1] :=
    ⟨(setFrame [97] [1]).bytes, setFrame [97] [1], by decide +kernel, by decide +kernel⟩
  have hiff := @reply_one_frame_iff (smallConfig 4096)
    (smallConfig_standalone 4096).toReliable {} (Small.opened 4096)
    (Small.opened_ok 4096 (by decide +kernel)) [.op (Small.set 4096 97 1)] hquiet 1
    (by decide +kernel) (by simpa [Act.Sent, Small.set] using hsent) (.quiet (0 : Nat))
    ⟨nofun, nofun⟩ scanFrame _ hreply
  rw [hiff]
  intro cmd hcmd _ rows hrows
  have hdecode : decodeCommand scanFrame = .ok { type := .scan, limit := 100 } := by
    decide +kernel
  obtain rfl := Except.ok.inj (hdecode.symm.trans hcmd)
  have hscan : ((Small.opened 4096).actAll (smallConfig 4096)
      [.op (Small.set 4096 97 1)]).scanPrefix (smallConfig 4096) [] 100
        = .ok [([97], [1])] := by decide +kernel
  obtain rfl := Except.ok.inj (hscan.symm.trans hrows)
  decide

/-! ## A scan that cannot be answered -/

/-- A new directory opens to an empty engine. -/
theorem fresh_opens {cfg : Config} (hpos : 0 < cfg.opts.walSegmentSizeBytes)
    (hmax : cfg.opts.walSegmentSizeBytes ≤ cfg.platform.maxMap) :
    ∃ e, (Engine.fresh cfg).open cfg {} = (.ok 0, e) ∧ e.isOpen = true ∧
      e.wal.isOpen = true ∧ e.wal.lastSeq = 0 ∧ e.wal.writeOffset = 0 ∧
      e.memtable = (Engine.fresh cfg).memtable ∧ e.l0Tables = [] ∧ e.l1Tables = [] := by
  have hwal : ((Engine.fresh cfg).wal.open cfg.platform cfg.cipher
      cfg.opts.walSegmentSizeBytes {}).1.isOk = true := wal_open_ok rfl hpos hmax
  obtain ⟨hlog, -, hoff⟩ := open_log rfl hwal
  have hrec := recovered_resize_nil cfg.cipher cfg.opts.walSegmentSizeBytes
  simp only [Engine.fresh, hrec] at hlog hoff
  have hreplay := hlog.replay Engine.replayRecord true (Engine.fresh cfg).memtable
  refine ⟨_, (open_ok_iff rfl).mpr ⟨rfl, rfl, hwal, rfl, rfl, ?_, rfl⟩, rfl, hlog.isOpen,
    hlog.lastSeq, hoff, ?_, rfl, rfl⟩
  · exact congrArg (fun x => Res.isOk x.1) hreplay
  · exact congrArg Prod.snd hreplay

/-- **The first write** of an engine, and the scan that finds it. -/
theorem scan_of_first_set {cfg : Config} (hcfg : cfg.Standalone) {e : Engine}
    (hopen : e.isOpen = true) (hwal : e.wal.isOpen = true) (hseq : e.wal.lastSeq = 0)
    (hoff : e.wal.writeOffset = 0) (hmem : e.memtable = (Engine.fresh cfg).memtable)
    (hl0 : e.l0Tables = []) (hl1 : e.l1Tables = []) (io : WriteIo cfg.cipher)
    {key value : Bytes} (hkey : key ≠ []) (hk : key.length < 2 ^ 16)
    (hv : value.length < 2 ^ 32)
    (hroom : 59 + (key.length + value.length) ≤ cfg.opts.walSegmentSizeBytes)
    (hbudget : 48 + key.length + value.length < cfg.opts.memtableBudgetBytes) :
    (e.set cfg io key value).1 = .ok 1 ∧
      (e.set cfg io key value).2.scanPrefix cfg [] 100 = .ok [(key, value)] := by
  have hfree : e.wal.writeOffset + (59 + (key.length + value.length))
      ≤ cfg.opts.walSegmentSizeBytes := by rw [hoff, Nat.zero_add]; exact hroom
  obtain ⟨w, happend⟩ :=
    append_of_room hcfg.lawful hcfg.encrypts hwal io.ts io.rand .kSet hk hv hfree
  rw [hseq, show addU64 0 1 = 1 from rfl] at happend
  have hlog : e.logWrite cfg io .kSet key value = (.ok 1, { e with wal := w }) := by
    rw [Engine.logWrite, if_neg (by simp [hopen]), if_neg hkey, happend]
  have hsmall : ¬ (e.memtable.put key ⟨value, 1, false⟩).memoryBudget
      ≤ (e.memtable.put key ⟨value, 1, false⟩).approxMemory := by
    have := Nat.mod_le (0 + (48 + key.length + value.length)) (2 ^ 64)
    rw [hmem]
    show ¬ cfg.opts.memtableBudgetBytes ≤ (0 + (48 + key.length + value.length)) % 2 ^ 64
    omega
  have hset : e.set cfg io key value
      = (.ok 1, { e with wal := w, memtable := e.memtable.put key ⟨value, 1, false⟩ }) := by
    rw [Engine.set, hlog]
    dsimp only
    rw [Engine.replicate, hcfg.alone, Bool.false_and, if_neg Bool.false_ne_true]
    dsimp only
    rw [Engine.applySet, MemTable.set_of_ne_nil hkey]
    dsimp only
    rw [if_neg hsmall]
  rw [hset]
  refine ⟨rfl, ?_⟩
  rw [Engine.scanPrefix, if_neg (by simp [hopen])]
  dsimp only
  rw [if_neg (by decide), Engine.scanCandidates]
  dsimp only
  rw [hl0, hl1, hmem]
  rfl

/-- An engine with the default options. -/
def defaultConfig : Config :=
  { cipher := fallback zeroKey
    platform := { maxMap := 2 ^ 40, maxMap_lt := by decide } }

theorem defaultConfig_standalone : defaultConfig.Standalone where
  lawful := fallback_lawful zeroKey
  encrypts := fun _ _ => rfl
  alone := rfl

/-- A SET frame whose payload is as large as it may be, and the SCAN that
finds its row. -/
theorem scan_reply_of_full_set {value : Bytes} (hlen : value.length = 4194297) :
    ∃ e, (Engine.fresh defaultConfig).open defaultConfig {} = (.ok 0, e) ∧
      tryParseFrames (setFrame [97] value).bytes = (none, [setFrame [97] value], []) ∧
      (e.handleFrame defaultConfig (.quiet (0 : Nat)) (setFrame [97] value)).1
        = some (encodeAck 1 (textBytes "OK")) ∧
      ∃ reply, ((e.handleFrame defaultConfig (.quiet (0 : Nat))
          (setFrame [97] value)).2.handleFrame defaultConfig (.quiet (0 : Nat))
            scanFrame).1 = some reply ∧
        reply.payload.length = kMaxPayloadBytes + 2 ∧ ¬ OneFrame reply.bytes := by
  obtain ⟨e, hopens, hopen, hwal, hseq, hoff, hmem, hl0, hl1⟩ :=
    @fresh_opens defaultConfig (by decide) (by decide)
  have hkey : ([97] : Bytes) ≠ [] := List.cons_ne_nil _ _
  have hvalue : value.length < 2 ^ 32 := by omega
  obtain ⟨hset, hscan⟩ := scan_of_first_set defaultConfig_standalone hopen hwal hseq hoff hmem
    hl0 hl1 (.quiet (0 : Nat)) hkey (by decide) hvalue (by rw [hlen]; decide)
    (by rw [hlen]; decide)
  have hpayload : (setFrame [97] value).payload.length = kMaxPayloadBytes := by
    simp only [setFrame, setPayload, List.length_append, length_appendLe, hlen]
    decide
  have hparse : frames.Splits ([setFrame [97] value].flatMap Frame.bytes ++ [])
      [setFrame [97] value] [] none :=
    splits_bytes (by simp [hpayload]) frameHead_nil
  rw [List.flatMap_singleton, List.append_nil] at hparse
  have hdecode : decodeCommand (setFrame [97] value)
      = .ok { type := .set, key := [97], value := value } :=
    decodeCommand_set (by decide) (by omega) 0
  have hdecode' : decodeCommand scanFrame = .ok { type := .scan, limit := 100 } := by
    decide +kernel
  have hrows : (encodeScanResult [([97], value)]).payload.length = kMaxPayloadBytes + 2 := by
    simp only [length_encodeScanResult, scanReplyBytes, List.map_singleton,
      List.sum_singleton, hlen, List.length_singleton]
    decide
  refine ⟨e, hopens, tryParseFrames_parses hparse, ?_, encodeScanResult [([97], value)], ?_,
    hrows, ?_⟩
  · rw [Engine.handleFrame, hdecode]
    dsimp only
    rw [hset]
    rfl
  · rw [Engine.handleFrame.eq_def _ _ scanFrame, hdecode', Engine.handleFrame, hdecode]
    dsimp only
    rw [hscan]
  · rw [oneFrame_iff, hrows]
    omega

/-- **A reply that cannot be read**: a value of 4194297 bytes is stored by a
legal SET frame, and the scan that finds it is answered with a frame that
`TryParseFrames` refuses. -/
theorem scan_reply_too_large :
    ∃ e, (Engine.fresh defaultConfig).open defaultConfig {} = (.ok 0, e) ∧
      tryParseFrames (setFrame [97] (List.replicate 4194297 0)).bytes
        = (none, [setFrame [97] (List.replicate 4194297 0)], []) ∧
      (e.handleFrame defaultConfig (.quiet (0 : Nat))
          (setFrame [97] (List.replicate 4194297 0))).1
        = some (encodeAck 1 (textBytes "OK")) ∧
      ∃ reply, ((e.handleFrame defaultConfig (.quiet (0 : Nat))
          (setFrame [97] (List.replicate 4194297 0))).2.handleFrame defaultConfig
            (.quiet (0 : Nat)) scanFrame).1 = some reply ∧
        reply.payload.length = kMaxPayloadBytes + 2 ∧ ¬ OneFrame reply.bytes :=
  scan_reply_of_full_set List.length_replicate

end VaultKV
