import VaultKV.Cli
import VaultKV.Server.Client

/-!
# Cli — what a session shows

The loop of `main`, over any server: a prompt, a line, a request, and what is
printed of the reply. The node is the server's side of the connection, with
its read buffer and `TryParseFrames`: a frame that is refused there is never
taken out of the buffer, and answered once more with every batch. Where no
line is that long, on an engine opened on an empty directory, the lines typed
and the lines printed explain each other: what follows a `GET` is the value of
the last `SET` of that key that was followed by an `ACK`, and 404 if there is
none or a `DEL` came behind it.
-/

namespace VaultKV

open Lib

namespace Cli

/-- What is printed of a reply; of a payload that does not decode nothing,
but for a scan. -/
def shown (resp : Frame) : Bytes :=
  match resp.type with
  | .ack =>
      match decodeAckPayload resp.payload with
      | some (seq, msg) =>
          textBytes "ACK seq=" ++ (decimal seq ++ (textBytes " msg=" ++ (msg ++ [10])))
      | none => []
  | .err =>
      match decodeErrorPayload resp.payload with
      | some (code, msg) =>
          textBytes "ERR code=" ++ (decimal code ++ (textBytes " msg=" ++ (msg ++ [10])))
      | none => []
  | .val =>
      match decodeValuePayload resp.payload with
      | some value => value ++ [10]
      | none => []
  | .scanResult =>
      match decodeScanResultPayload resp.payload with
      | .ok entries => entries.flatMap fun x => x.1 ++ (textBytes " => " ++ (x.2 ++ [10]))
      | .error err => textBytes "scan decode error: " ++ (textBytes err ++ [10])
  | _ => []

section

variable {σ : Type} (serve : Frame → σ → Option Frame × σ)

/-- One round of the loop: what it prints behind the prompt, and `none` where
it breaks the loop. Without a reply the connection is gone, so that the
header cannot be read. -/
def turn (line : Bytes) (s : σ) : Option Bytes × σ :=
  match input line with
  | .blank => (some [], s)
  | .quit => (none, s)
  | .unknown => (some (textBytes "unknown command\n"), s)
  | .request f => ((serve f s).1.map shown, (serve f s).2)

/-- **The loop of `main`**: the lines it takes, each with what is printed
behind it. -/
def session : List Bytes → σ → List (Bytes × Bytes)
  | [], _ => []
  | line :: lines, s =>
      match turn serve line s with
      | (none, _) => []
      | (some out, s) => (line, out) :: session lines s

end

/-- The write that a line asked for, if an acknowledgement was printed. -/
def acknowledged (x : Bytes × Bytes) : List ClientWrite :=
  if (textBytes "ACK ").isPrefixOf x.2 then
    match typed x.1 with
    | some (.set key value) => [.set key value]
    | some (.del key) => [.delete key]
    | _ => []
  else []

/-! ## What is printed of a reply -/

theorem shown_value {v : Bytes} (h : 4 + v.length < 2 ^ 32) :
    shown (encodeValue v) = v ++ [10] := by
  have hdecode : decodeValuePayload (encodeValue v).payload = some v :=
    decodeValuePayload_iff.mpr ⟨h, rfl⟩
  rw [shown, hdecode]
  rfl

theorem shown_error {code : Nat} {msg : Bytes} (hcode : code < 2 ^ 16)
    (hmsg : msg.length ≤ 65535) :
    shown (encodeError code msg)
      = textBytes "ERR code=" ++ (decimal code ++ (textBytes " msg=" ++ (msg ++ [10]))) := by
  have hdecode : decodeErrorPayload (encodeError code msg).payload = some (code, msg) :=
    decodeErrorPayload_iff.mpr ⟨hcode, hmsg, rfl⟩
  rw [shown, hdecode]
  rfl

/-- A sequence number is written modulo `2 ^ 64`. -/
theorem encodeAck_mod (seq : Nat) (msg : Bytes) :
    encodeAck (seq % 2 ^ 64) msg = encodeAck seq msg := by
  have hle : appendLe 8 (seq % 2 ^ 64) = appendLe 8 seq := by
    refine leNat_injective (by simp) ?_
    rw [appendLe, appendLe, leNat_leBytes_mod, leNat_leBytes_mod]
    exact Nat.mod_mod seq (2 ^ 64)
  rw [encodeAck, hle, encodeAck]

theorem shown_ack (seq : Nat) {msg : Bytes} (hmsg : msg.length ≤ 65535) :
    shown (encodeAck seq msg) = textBytes "ACK seq=" ++
      (decimal (seq % 2 ^ 64) ++ (textBytes " msg=" ++ (msg ++ [10]))) := by
  have hdecode : decodeAckPayload (encodeAck seq msg).payload = some (seq % 2 ^ 64, msg) :=
    decodeAckPayload_iff.mpr ⟨Nat.mod_lt _ (by decide), hmsg, by rw [encodeAck_mod]⟩
  rw [shown, hdecode]
  rfl

theorem isPrefixOf_append (a b rest : Bytes) (h : a.isPrefixOf b = true) :
    a.isPrefixOf (b ++ rest) = true := by
  rw [List.isPrefixOf_iff_prefix] at h ⊢
  exact h.trans (List.prefix_append b rest)

/-- **Printed is an acknowledgement exactly of an acknowledgement.** -/
theorem ack_shown_iff (res : Res Nat) {resp : Frame} (h : Engine.writeReply res = some resp) :
    (textBytes "ACK ").isPrefixOf (shown resp) = true ↔ resp.type = .ack := by
  cases res with
  | ok seq =>
      obtain rfl := Option.some.inj h
      rw [shown_ack seq (by decide +kernel)]
      exact iff_of_true (isPrefixOf_append _ _ _ (by decide +kernel)) rfl
  | error err =>
      cases err with
      | exception x => cases h
      | outOfBounds => cases h
      | status st =>
          obtain rfl := Option.some.inj h
          refine iff_of_false ?_ (by rintro ⟨⟩)
          rw [shown]
          dsimp only [encodeError]
          split
          · next code msg _ =>
            have hack : textBytes "ACK " = 65 :: textBytes "CK " := by decide +kernel
            have herr : textBytes "ERR code=" = 69 :: textBytes "RR code=" := by decide +kernel
            rw [hack, herr]
            exact Bool.false_ne_true
          · decide +kernel

/-! ## What a read can say -/

theorem answerOf_status {v : MemValue} {st : Status}
    (h : Engine.answerOf v = .error (.status st)) : st.message = "deleted" := by
  rw [Engine.answerOf] at h
  split at h
  · cases h; rfl
  · cases h

theorem getTables_status {c : Cipher} {dir : SortedMap Bytes Bytes} {key : Bytes} {st : Status}
    (rds : List SstableReader)
    (h : Engine.getTables c dir key rds = some (.error (.status st))) : st.message = "deleted" := by
  induction rds with
  | nil => cases h
  | cons rd rds ih =>
      rw [Engine.getTables] at h
      split at h
      · exact answerOf_status (Option.some.inj h)
      · exact ih h
      · next err hne _ =>
        cases h
        exact absurd rfl (hne st)

/-- The two texts of a key that is not there. -/
theorem get_notFound {cfg : Config} {e : Engine} {k : Bytes} {msg : String}
    (h : e.get cfg k = .error (Status.notFound msg)) :
    msg = "deleted" ∨ msg = "key not found" := by
  rw [Engine.get] at h
  split at h
  · cases h
  split at h
  · cases h
  split at h
  · exact .inl (answerOf_status h)
  split at h
  · next r hr => exact .inl (getTables_status _ (h ▸ hr))
  split at h
  · next r hr => exact .inl (getTables_status _ (h ▸ hr))
  · cases h
    exact .inr rfl

/-! ## Lines and the engine -/

/-- A line whose request the node takes and understands: its payload stays
below `kMaxPayloadBytes`, its key or prefix below 64 KiB. -/
def Short (line : Bytes) : Prop :=
  line.length + 6 ≤ kMaxPayloadBytes ∧ ∀ r ∈ typed line, r.name.length < 2 ^ 16

instance (line : Bytes) : Decidable (Short line) := inferInstanceAs (Decidable (_ ∧ _))

variable {cfg : Config}

/-- The node's side of the connection: its read buffer, its session, of
whose write buffer the client has read the front, and how many requests have
come in. -/
structure Remote where
  rbuf : Bytes := []
  session : Session
  asked : Nat := 0

/-- The engine as one sequential object. -/
def Remote.engine (r : Remote) : Engine × Nat := (r.session.engine, r.session.handled)

/-- Nothing is left unread on either side, and the node runs. -/
structure Remote.Idle (r : Remote) : Prop where
  rbuf : r.rbuf = []
  wbuf : r.session.wbuf = []
  alive : r.session.alive = true

/-- The node at the other end of the connection. The bytes of the `n`-th
request arrive in the batches that `cut n` makes of them; then the client
reads one answer, whichever is the first. -/
def node (cfg : Config) (ios : Nat → WriteIo cfg.cipher) (cut : Nat → Bytes → List Bytes)
    (f : Frame) (r : Remote) : Option Frame × Remote :=
  let served := Framing.feed tryParseFrames (Session.handle cfg ios) Session.reject r.rbuf
    r.session (cut r.asked f.bytes)
  match Client.readResponse [served.2.wbuf] with
  | none => (none, ⟨served.1, served.2, r.asked + 1⟩)
  | some (resp, rest) =>
      (some resp, ⟨served.1, { served.2 with wbuf := rest.flatten }, r.asked + 1⟩)

/-- **A frame that fits** is answered by the engine, whatever the batches. -/
theorem node_of_fits {ios : Nat → WriteIo cfg.cipher} {cut : Nat → Bytes → List Bytes}
    (hcut : ∀ n b, (cut n b).flatten = b) {r : Remote} (hidle : r.Idle) {f : Frame}
    (hfits : f.payload.length ≤ kMaxPayloadBytes)
    (hreply : ∀ resp ∈ (Engine.answer cfg ios r.engine (.frame f)).1,
      resp.payload.length < 2 ^ 32) :
    (node cfg ios cut f r).1 = (Engine.answer cfg ios r.engine (.frame f)).1 ∧
      (∀ resp, (node cfg ios cut f r).1 = some resp → (node cfg ios cut f r).2.Idle ∧
        (node cfg ios cut f r).2.engine = (Engine.answer cfg ios r.engine (.frame f)).2) := by
  have hstart : frames.head [] = .more := frameHead_nil
  have hsplit : frames.Splits ([] ++ (cut r.asked f.bytes).flatten) [f] [] none := by
    have hwhole : frames.Splits ([f].flatMap Frame.bytes ++ []) [f] [] none :=
      splits_bytes (by simpa using hfits) frameHead_nil
    rwa [List.append_nil, List.flatMap_singleton, ← hcut r.asked f.bytes] at hwhole
  have hfeed : Framing.feed tryParseFrames (Session.handle cfg ios) Session.reject [] r.session
      (cut r.asked f.bytes) = ([], [f].foldl (Session.handle cfg ios) r.session) :=
    Framing.feed_eq tryParseFrames_parses _ r.session hstart hsplit
  rw [Engine.answer] at hreply ⊢
  dsimp only [Remote.engine] at hreply ⊢
  rw [node, hidle.rbuf, hfeed, List.foldl_cons, List.foldl_nil, Session.handle,
    if_neg (by simp [hidle.alive])]
  rcases hhandle : r.session.engine.handleFrame cfg (ios r.session.handled) f with ⟨resp?, e⟩
  rw [hhandle] at hreply
  cases resp? with
  | none =>
      dsimp only
      rw [hidle.wbuf]
      exact ⟨rfl, fun resp hresp => by cases hresp⟩
  | some resp =>
      have hne : resp.bytes ≠ [] := List.ne_nil_of_length_pos (by rw [length_bytes]; omega)
      have hholds : Client.Holds [resp.bytes] (resp.bytes ++ []) :=
        ⟨by simp, by simpa using hne⟩
      obtain ⟨rest, hread, hrest⟩ := Client.readResponse_bytes (hreply resp rfl) hholds
      dsimp only
      rw [hidle.wbuf, List.nil_append, hread]
      exact ⟨rfl, fun _ _ => ⟨⟨rfl, hrest.1, hidle.alive⟩, rfl⟩⟩

/-- What a line's request meets and starts is without failures, a compaction
in it is safe, and the length of its reply fits a header. -/
def SafeLine (cfg : Config) (ios : Nat → WriteIo cfg.cipher) (line : Bytes) (r : Remote) :
    Prop :=
  ∀ q ∈ typed line, SafeAsk cfg ios (.frame q.frame) r.engine ∧
    ∀ resp ∈ (Engine.answer cfg ios r.engine (.frame q.frame)).1, resp.payload.length < 2 ^ 32

theorem decode_typed {line : Bytes} {r : Request} (hshort : Short line)
    (h : typed line = some r) : decodeCommand r.frame = .ok r.command := by
  refine decode_frame (hshort.2 r h) (fun key value hr => ?_) fun start limit hr => ?_
  · have hlen := typed_set_length (hr ▸ h)
    have hmax : kMaxPayloadBytes < 2 ^ 32 := by decide
    have hline := hshort.1
    omega
  · exact typed_scan_limit (hr ▸ h)

/-- The write that a line asks for. -/
def Request.write? : Request → Option ClientWrite
  | .set key value => some (.set key value)
  | .del key => some (.delete key)
  | _ => none

theorem write?_frame {r : Request} (h : decodeCommand r.frame = .ok r.command) :
    (Ask.frame r.frame).write? = r.write? := by
  rw [Ask.write?, h]
  cases r <;> rfl

theorem reads?_frame {k : Bytes} (h : decodeCommand (Request.get k).frame
    = .ok (Request.get k).command) : (Ask.frame (Request.get k).frame).reads? = some k := by
  rw [Ask.reads?, h]
  rfl

/-- What the printed line acknowledges is what the engine took. -/
theorem acknowledged_eq {ios : Nat → WriteIo cfg.cipher} {s : Engine × Nat} {line : Bytes}
    {r : Request} {resp : Frame} (hr : typed line = some r)
    (hdecode : decodeCommand r.frame = .ok r.command)
    (hresp : (Engine.answer cfg ios s (.frame r.frame)).1 = some resp) :
    acknowledged (line, shown resp) = written ⟨0, .frame r.frame, some resp⟩ := by
  have hwrite := write?_frame hdecode
  have hread : acknowledged (line, shown resp)
      = if (textBytes "ACK ").isPrefixOf (shown resp) then r.write?.toList else [] := by
    rw [acknowledged, hr]
    cases r <;> rfl
  rw [hread, written, hwrite]
  cases hw : r.write? with
  | none => exact ite_self []
  | some w =>
      rw [hw] at hwrite
      rw [answer_write hwrite] at hresp
      simp only [ack_shown_iff _ hresp, Option.toList]

/-- The state of a session: the connection is idle, and the engine tells the
acknowledged writes, whose values fit a reply. -/
structure Shows (cfg : Config) (ws : List ClientWrite) (r : Remote) : Prop where
  idle : r.Idle
  tells : r.engine.1.Tells cfg ws
  fits : ∀ w ∈ ws, 4 + w.value.length < 2 ^ 32

/-- What a `GET` prints. -/
def Prints (k : Bytes) (ws : List ClientWrite) (out : Bytes) : Prop :=
  if k = [] then out = textBytes "ERR code=400 msg=key must not be empty\n"
  else
    match latest k ws with
    | some v => out = v ++ [10]
    | none => out = textBytes "ERR code=404 msg=key not found\n" ∨
        out = textBytes "ERR code=404 msg=deleted\n"

theorem mem_of_latest {k v : Bytes} {ws : List ClientWrite} (h : latest k ws = some v) :
    ∃ w ∈ ws, w.value = v := by
  obtain ⟨w, hfind, hanswer⟩ := Option.bind_eq_some_iff.mp h
  refine ⟨w, List.mem_reverse.mp (List.mem_of_find?_eq_some hfind), ?_⟩
  cases w with
  | set key value => exact Option.some.inj hanswer
  | delete key => cases hanswer

theorem prints_get {ios : Nat → WriteIo cfg.cipher} {r : Remote} {ws : List ClientWrite}
    {k : Bytes} {resp : Frame} (h : Shows cfg ws r)
    (hdecode : decodeCommand (Request.get k).frame = .ok (Request.get k).command)
    (hresp : (Engine.answer cfg ios r.engine (.frame (Request.get k).frame)).1 = some resp) :
    Prints k ws (shown resp) := by
  rw [answer_read (reads?_frame hdecode)] at hresp
  rw [Prints]
  by_cases hk : k = []
  · rw [hk, h.tells.get_nil] at hresp
    obtain rfl := Option.some.inj hresp
    rw [if_pos hk]
    exact (shown_error (by decide) (by decide +kernel)).trans (by decide +kernel)
  rw [if_neg hk]
  have hanswer := (h.tells.answers_iff hk (latest k ws)).mpr rfl
  cases hlast : latest k ws with
  | some v =>
      rw [hlast] at hanswer
      obtain ⟨w, hw, rfl⟩ := mem_of_latest hlast
      have hok : r.engine.1.get cfg k = .ok w.value := hanswer
      rw [hok] at hresp
      obtain rfl := Option.some.inj hresp
      exact shown_value (h.fits w hw)
  | none =>
      rw [hlast] at hanswer
      obtain ⟨msg, hmsg⟩ := hanswer
      rw [hmsg] at hresp
      obtain rfl := Option.some.inj hresp
      rcases get_notFound hmsg with rfl | rfl
      · exact .inr ((shown_error (by decide) (by decide +kernel)).trans (by decide +kernel))
      · exact .inl ((shown_error (by decide) (by decide +kernel)).trans (by decide +kernel))

/-- What a line acknowledges fits a reply. -/
theorem acknowledged_fits {line out : Bytes} (hshort : Short line) :
    ∀ w ∈ acknowledged (line, out), 4 + w.value.length < 2 ^ 32 := by
  intro w hw
  have hline := hshort.1
  have hmax : kMaxPayloadBytes + 4 < 2 ^ 32 := by decide
  rw [acknowledged] at hw
  split at hw
  · cases hr : typed line with
    | none => rw [hr] at hw; cases hw
    | some r =>
        rw [hr] at hw
        cases r with
        | set key value =>
            have hlen := typed_set_length hr
            obtain rfl := List.mem_singleton.mp hw
            dsimp only [ClientWrite.value]
            omega
        | del key =>
            obtain rfl := List.mem_singleton.mp hw
            dsimp only [ClientWrite.value]
            decide
        | _ => cases hw
  · cases hw

section

variable {ios : Nat → WriteIo cfg.cipher} {cut : Nat → Bytes → List Bytes}

/-- **One round of the loop.** -/
theorem turn_shows (hcfg : cfg.Reliable) (hcut : ∀ n b, (cut n b).flatten = b) {r r' : Remote}
    {ws : List ClientWrite} {line out : Bytes} (h : Shows cfg ws r) (hshort : Short line)
    (hsafe : SafeLine cfg ios line r) (hturn : turn (node cfg ios cut) line r = (some out, r')) :
    (∀ k, typed line = some (.get k) → Prints k ws out) ∧
      Shows cfg (ws ++ acknowledged (line, out)) r' := by
  rw [turn] at hturn
  cases hq : typed line with
  | none =>
      have hnone : acknowledged (line, out) = [] := by
        rw [acknowledged, hq]
        exact ite_self []
      have hstate : r = r' := by
        cases hin : input line with
        | request f => exact absurd hin (input_of_untyped hq f)
        | quit => rw [hin] at hturn; cases hturn
        | blank => rw [hin] at hturn; exact (Prod.ext_iff.mp hturn).2
        | unknown => rw [hin] at hturn; exact (Prod.ext_iff.mp hturn).2
      rw [hnone, List.append_nil, ← hstate]
      exact ⟨nofun, h⟩
  | some q =>
      have hdecode := decode_typed hshort hq
      have hfits : q.frame.payload.length ≤ kMaxPayloadBytes :=
        (typed_payload_length hq).trans hshort.1
      obtain ⟨hask, hsize⟩ := hsafe q hq
      obtain ⟨hnode, hafter⟩ := node_of_fits hcut h.idle hfits hsize
      rw [input_of_typed hq] at hturn
      obtain ⟨hout, rfl⟩ := Prod.ext_iff.mp hturn
      obtain ⟨resp, hresp, rfl⟩ := Option.map_eq_some_iff.mp hout
      obtain ⟨hidle, hengine⟩ := hafter resp hresp
      rw [hnode] at hresp
      refine ⟨fun k hk => ?_, hidle, ?_, fun w hw => ?_⟩
      · cases hk
        exact prints_get h hdecode hresp
      · rw [acknowledged_eq hq hdecode hresp]
        dsimp only
        rw [hengine]
        exact (answer_tells hcfg ⟨0, .frame q.frame, some resp⟩ h.tells hask hresp.symm).2
      · rcases List.mem_append.mp hw with hw | hw
        · exact h.fits w hw
        · exact acknowledged_fits hshort w hw

/-- **The rounds before a line** leave the engine telling what was
acknowledged. -/
theorem session_prints (hcfg : cfg.Reliable) (hcut : ∀ n b, (cut n b).flatten = b)
    {line out k : Bytes} (hget : typed line = some (.get k)) {after : List (Bytes × Bytes)}
    (lines : List Bytes) (hshort : ∀ line ∈ lines, Short line) :
    ∀ {r : Remote} {ws : List ClientWrite} {before : List (Bytes × Bytes)},
      Shows cfg ws r →
      Along (fun line r => (turn (node cfg ios cut) line r).2) (SafeLine cfg ios) lines r →
      session (node cfg ios cut) lines r = before ++ (line, out) :: after →
      Prints k (ws ++ before.flatMap acknowledged) out := by
  induction lines with
  | nil =>
      intro r ws before _ _ hsplit
      exact absurd (congrArg List.length hsplit) (by simp [session])
  | cons first lines ih =>
      intro r ws before hshows hsafe hsplit
      rw [session] at hsplit
      generalize hturn : turn (node cfg ios cut) first r = x at hsplit
      obtain ⟨_ | out', r'⟩ := x
      · exact absurd (congrArg List.length hsplit) (by simp)
      have hstep := turn_shows hcfg hcut hshows (hshort first List.mem_cons_self) hsafe.1 hturn
      cases before with
      | nil =>
          obtain ⟨hfirst, -⟩ := List.cons.inj hsplit
          cases hfirst
          rw [List.flatMap_nil, List.append_nil]
          exact hstep.1 k hget
      | cons x before =>
          obtain ⟨rfl, hrest⟩ := List.cons.inj hsplit
          rw [List.flatMap_cons, ← List.append_assoc]
          have hafter := hsafe.2
          dsimp only at hafter
          rw [hturn] at hafter
          exact ih (fun l hl => hshort l (List.mem_cons_of_mem first hl)) hstep.2 hafter hrest

/-- **A session shows one map.** Whatever is typed on an engine opened on an
empty directory, and however the requests are cut on the way: if every line is
`Short`, what the requests meet is without I/O or crypto failure and
without a compaction that brings a deleted key back, and no reply has 4 GiB,
then a `GET` prints the value of the last `SET` of its key that was answered
with an `ACK`, and 404 if there is none or a `DEL` answered with an `ACK` came
behind it; without a key it prints 400. -/
theorem session_shows_last_acknowledged (hcfg : cfg.Reliable) {openIo : OpenIo} {e : Engine}
    (hopen : (Engine.fresh cfg).open cfg openIo = (.ok 0, e)) (ios : Nat → WriteIo cfg.cipher)
    (hcut : ∀ n b, (cut n b).flatten = b) (lines : List Bytes)
    (hshort : ∀ line ∈ lines, Short line)
    (hsafe : Along (fun line r => (turn (node cfg ios cut) line r).2) (SafeLine cfg ios) lines
      { session := { engine := e } })
    {before after : List (Bytes × Bytes)} {line out k : Bytes}
    (hsplit : session (node cfg ios cut) lines { session := { engine := e } }
      = before ++ (line, out) :: after)
    (hget : typed line = some (.get k)) : Prints k (before.flatMap acknowledged) out := by
  have hstart : Shows cfg [] { session := { engine := e } } :=
    ⟨⟨rfl, rfl, rfl⟩, Engine.Tells.of_open hopen, fun _ hw => absurd hw List.not_mem_nil⟩
  have h := session_prints hcfg hcut hget lines hshort hstart hsafe hsplit
  rwa [List.nil_append] at h

end

/-- A key is set, read, deleted and read again, with a line in between that
is no command. -/
def typedLines : List Bytes :=
  [textBytes "SET a  1 ", textBytes "get a", textBytes "what", textBytes "del a",
   textBytes "GET a"]

/-- Each request arrives in two batches. -/
def inTwo (_ : Nat) (b : Bytes) : List Bytes := [b.take 5, b.drop 5]

def typedSession : List (Bytes × Bytes) :=
  session (node (smallConfig 1000) (fun _ => .quiet (0 : Nat)) inTwo) typedLines
    { session := { engine := Small.opened 1000 } }

theorem typedSession_shows :
    typedSession[1]? = some (textBytes "get a", textBytes " 1 \n") ∧
    typedSession[4]? = some (textBytes "GET a", textBytes "ERR code=404 msg=deleted\n") ∧
    Prints [97] ((typedSession.take 4).flatMap acknowledged)
      (textBytes "ERR code=404 msg=deleted\n") := by
  have hsplit : typedSession = typedSession.take 4 ++
      [(textBytes "GET a", textBytes "ERR code=404 msg=deleted\n")] := by decide +kernel
  refine ⟨by decide +kernel, by decide +kernel, ?_⟩
  refine session_shows_last_acknowledged (smallConfig_standalone 1000).toReliable
    (Small.opened_ok 1000 (by decide +kernel)) (fun _ => .quiet (0 : Nat))
    (fun _ b => by simp [inTwo]) typedLines (by decide +kernel) ?_ hsplit (by decide +kernel)
  have hiff : ∀ line r, SafeLine (smallConfig 1000) (fun _ => .quiet (0 : Nat)) line r ↔
      ∀ q ∈ typed line, (∀ w ∈ (Ask.frame q.frame).write?,
          r.engine.1.SafeStep (smallConfig 1000) (w.toOp (.quiet (0 : Nat)))) ∧
        ∀ resp ∈ (Engine.answer (smallConfig 1000) (fun _ => .quiet (0 : Nat)) r.engine
          (.frame q.frame)).1, resp.payload.length < 2 ^ 32 := fun line r =>
    forall₂_congr fun q _ => and_congr_left' (safeAsk_quiet_iff 1000 (.frame q.frame) r.engine)
  refine (along_congr (I := fun _ => True) (fun _ _ _ => trivial)
    (fun line r _ => hiff line r) _ trivial).mpr ?_
  decide +kernel

end Cli

end VaultKV
