import VaultKV.Server.Client
import VaultKV.Server.Shared

/-!
# Transport — one record to one peer (`TcpReplicationTransport::Replicate`)

A host name may stand for several addresses. `Replicate` tries them one after
the other on new connections until one of them answers with an `ACK`; a reply
that is an error, is cut short or comes too late makes it go on to the NEXT
address, where the same frame is sent again, although the peer may have
applied it. Nor is a broken pipe held off: it ends the process.

All the same a call is all or nothing for the peer: however many of the
addresses took the frame, what the peer tells afterwards is what it told
before or what one write makes of it, and after `true` it is the latter.
-/

namespace VaultKV

open Lib

/-- What one address of the peer comes to: no socket, no connection, or what
the calls of `send` and of `recv` return there, and whether the whole frame
gets to the peer. -/
inductive Attempt where
  | noSocket
  | refused
  | talked (sends : List Send) (arrives : Bool) (recvs : List Bytes)

namespace Transport

/-- The loop around `send` with so many bytes to go. A call that runs into
`SO_SNDTIMEO` is the last one. -/
def sendLoop : List Send → Nat → SendEnd
  | _, 0 => .done
  | [], _ + 1 => .failed
  | .took more _ :: rs, len + 1 => sendLoop rs (len - more)
  | .wouldBlock :: _, _ + 1 => .failed
  | .failed :: _, _ + 1 => .failed
  | .brokenPipe :: _, _ + 1 => .killed

end Transport

namespace Attempt

variable (f : Frame)

/-- The body of the loop over the addresses: `ok` afterwards, `none` if a
broken pipe has ended the process. -/
def outcome : Attempt → Option Bool
  | .noSocket => some false
  | .refused => some false
  | .talked sends _ recvs =>
      match Transport.sendLoop sends f.bytes.length with
      | .killed => none
      | .failed => some false
      | .done =>
          match Client.readResponse recvs with
          | none => some false
          | some (resp, _) => some (decide (resp.type = .ack))

/-- The peer gets the whole frame, and `TryParseFrames` takes it there. -/
def delivers : Attempt → Bool
  | .talked sends arrives _ =>
      arrives && decide (Transport.sendLoop sends f.bytes.length = .done) &&
        decide (f.payload.length ≤ kMaxPayloadBytes)
  | _ => false

/-- What can be read before the connection ends or `SO_RCVTIMEO` is over. -/
def heard : Attempt → Bytes
  | .talked _ _ recvs => (recvs.takeWhile (· ≠ [])).flatten
  | _ => []

end Attempt

namespace Transport

/-- The loop over the addresses. -/
def tryAll (f : Frame) : List Attempt → Option Bool
  | [] => some false
  | a :: rest =>
      match a.outcome f with
      | some false => tryAll f rest
      | r => r

/-- `TcpReplicationTransport::Replicate`; `none` for the addresses when
`getaddrinfo` fails. Records of checkpoints are not sent. -/
def replicate (rec : WalRecord) (addrs : Option (List Attempt)) : Option Bool :=
  if rec.op = .kSet ∨ rec.op = .kDelete then
    match replicationFrame rec, addrs with
    | some f, some attempts => tryAll f attempts
    | _, _ => some false
  else some true

/-- The addresses that are tried. -/
def made (f : Frame) : List Attempt → List Attempt
  | [] => []
  | a :: rest => a :: if a.outcome f = some false then made f rest else []

/-! ## The peer -/

variable (cfg : Config) (ios : Nat → WriteIo cfg.cipher) (f : Frame)

/-- The peer, when an address was tried. -/
def next (a : Attempt) (s : Engine × Nat) : Engine × Nat :=
  if a.delivers f then (Engine.answer cfg ios s (.frame f)).2 else s

/-- What the peer sends on a connection: the engine's reply, and one error for
each of the `n` batches of a frame that is refused. -/
def sentBack (n : Nat) (a : Attempt) (s : Engine × Nat) : Bytes :=
  if kMaxPayloadBytes < f.payload.length then
    (List.replicate n (encodeError 400 (textBytes "payload too large")).bytes).flatten
  else if a.delivers f then replyBytes (Engine.answer cfg ios s (.frame f)).1 else []

/-- What is read on a connection is a front of what the peer sends there; and
what the frame meets and starts is without failures, and a compaction in it
is safe. -/
def Good (a : Attempt) (s : Engine × Nat) : Prop :=
  (∃ n, a.heard <+: sentBack cfg ios f n a s) ∧
    (a.delivers f = true → SafeAsk cfg ios (.frame f) s)

end Transport

/-! ## The reply -/

namespace Client

/-- What is read is there, before the stream ends. -/
theorem readExact_heard (chunks : List Bytes) :
    ∀ {len : Nat} {b : Bytes} {rest : List Bytes}, readExact chunks len = some (b, rest) →
      b.length = len ∧ b <+: (chunks.takeWhile (· ≠ [])).flatten := by
  induction chunks with
  | nil =>
      intro len b rest h
      rw [readExact] at h
      split at h
      · next hlen =>
        cases h
        exact ⟨hlen.symm, List.nil_prefix⟩
      · cases h
  | cons c cs ih =>
      intro len b rest h
      rw [readExact] at h
      split at h
      · next hlen =>
        cases h
        exact ⟨hlen.symm, List.nil_prefix⟩
      split at h
      · cases h
      next hlen hc =>
      have hhead : ((c :: cs).takeWhile (· ≠ [])).flatten
          = c ++ (cs.takeWhile (· ≠ [])).flatten := by
        rw [List.takeWhile_cons_of_pos (by simpa using hc), List.flatten_cons]
      rw [hhead]
      split at h
      · next hle =>
        obtain ⟨⟨b', rest'⟩, hread, heq⟩ := Option.map_eq_some_iff.mp h
        cases heq
        obtain ⟨hlen', hfront⟩ := ih hread
        refine ⟨?_, (List.prefix_append_right_inj c).mpr hfront⟩
        rw [List.length_append, hlen']
        omega
      · next hle =>
        cases h
        refine ⟨?_, (List.take_prefix len c).trans (List.prefix_append ..)⟩
        rw [List.length_take]
        omega

/-- The type of a response is its first byte. -/
theorem readResponse_head {chunks rest : List Bytes} {r : Frame}
    (h : readResponse chunks = some (r, rest)) :
    ∃ b bs, b :: bs <+: (chunks.takeWhile (· ≠ [])).flatten ∧ r.type = OpType.ofByte b := by
  rw [readResponse] at h
  obtain ⟨⟨hdr, chunks'⟩, hhdr, h⟩ := Option.bind_eq_some_iff.mp h
  obtain ⟨hlen, hfront⟩ := readExact_heard chunks hhdr
  have htype : r.type = OpType.ofByte (hdr.getD 0 0) := by
    dsimp only at h
    split at h
    · obtain ⟨⟨payload, chunks''⟩, -, h⟩ := Option.bind_eq_some_iff.mp h
      cases h
      rfl
    · cases h
      rfl
  cases hdr with
  | nil => cases hlen
  | cons b bs => exact ⟨b, bs, hfront, htype⟩

/-- **What is taken for an `ACK` is the type of the first reply.** -/
theorem readResponse_type {chunks rest : List Bytes} {resp r : Frame} {more : Bytes}
    (hread : readResponse chunks = some (r, rest))
    (h : (chunks.takeWhile (· ≠ [])).flatten <+: resp.bytes ++ more) : r.type = resp.type := by
  obtain ⟨b, bs, hfront, htype⟩ := readResponse_head hread
  obtain ⟨t, ht⟩ := hfront.trans h
  have hb : b = resp.type.toByte := (List.cons.inj ht).1
  rw [htype, hb]
  exact OpType.ofByte_toByte resp.type

/-- Nothing is read where nothing was answered. -/
theorem readResponse_silent {chunks : List Bytes}
    (h : (chunks.takeWhile (· ≠ [])).flatten <+: []) : readResponse chunks = none := by
  by_contra hsome
  obtain ⟨⟨r, rest⟩, hread⟩ := Option.ne_none_iff_exists'.mp hsome
  obtain ⟨b, bs, hfront, -⟩ := readResponse_head hread
  exact List.cons_ne_nil b bs (List.prefix_nil.mp (hfront.trans h))

end Client

namespace Transport

variable {cfg : Config} {ios : Nat → WriteIo cfg.cipher} {f : Frame} {w : ClientWrite}

theorem write?_replicated (hf : w.frame? = some f) : (Ask.frame f).write? = some w := by
  rw [Ask.write?, ClientWrite.decodeCommand_frame hf]
  cases w <;> rfl

/-- **An address that answers with an `ACK`** has got the frame, and the peer
has taken the write. -/
theorem acked_of_outcome {a : Attempt} {s : Engine × Nat} (hgood : Good cfg ios f a s)
    (h : a.outcome f = some true) :
    a.delivers f = true ∧ ∃ resp, (Engine.answer cfg ios s (.frame f)).1 = some resp ∧
      resp.type = .ack := by
  cases a with
  | noSocket => cases h
  | refused => cases h
  | talked sends arrives recvs =>
      obtain ⟨n, hheard⟩ := hgood.1
      rw [Attempt.outcome] at h
      split at h
      · cases h
      · cases h
      next hdone =>
      have hread : Client.readResponse recvs ≠ none := by
        intro hnone
        rw [hnone] at h
        cases h
      obtain ⟨⟨r, rest⟩, hr⟩ := Option.ne_none_iff_exists'.mp hread
      rw [hr] at h
      have hack : r.type = .ack := of_decide_eq_true (Option.some.inj h)
      have hsilent : ∀ {t : Bytes}, Attempt.heard (.talked sends arrives recvs) <+: t → t ≠ [] :=
        fun ht hnil => by
          rw [hnil] at ht
          exact hread (Client.readResponse_silent ht)
      -- a response was read, so the peer has answered, and not with an error, so it has
      -- taken the frame
      rw [sentBack] at hheard
      split at hheard
      · cases n with
        | zero => exact absurd rfl (hsilent hheard)
        | succ n =>
            rw [List.replicate_succ, List.flatten_cons] at hheard
            have htype := Client.readResponse_type hr hheard
            rw [hack] at htype
            cases htype
      split at hheard
      · next hdelivers =>
        refine ⟨hdelivers, ?_⟩
        cases hreply : (Engine.answer cfg ios s (.frame f)).1 with
        | none =>
            rw [hreply] at hheard
            exact absurd rfl (hsilent hheard)
        | some resp =>
            rw [hreply] at hheard
            have hfront : Attempt.heard (.talked sends arrives recvs) <+: resp.bytes ++ [] := by
              rw [List.append_nil]
              exact hheard
            exact ⟨resp, rfl, (Client.readResponse_type hr hfront).symm.trans hack⟩
      · exact absurd rfl (hsilent hheard)

/-- **One address**: the peer takes the write or it does not. -/
theorem next_tells (hcfg : cfg.Reliable) (hf : w.frame? = some f) {a : Attempt}
    {s : Engine × Nat} {ws : List ClientWrite} (h : s.1.Tells cfg ws)
    (hgood : Good cfg ios f a s) :
    ∃ n, (next cfg ios f a s).1.Tells cfg (ws ++ List.replicate n w) ∧
      (a.outcome f = some true → 0 < n) := by
  by_cases hdelivers : a.delivers f = true
  · have hwrite := write?_replicated hf
    have hstep := (answer_tells hcfg ⟨0, .frame f, (Engine.answer cfg ios s (.frame f)).1⟩ h
      (hgood.2 hdelivers) rfl).2
    rw [next, if_pos hdelivers]
    by_cases hack : ∃ resp, (Engine.answer cfg ios s (.frame f)).1 = some resp ∧ resp.type = .ack
    · obtain ⟨resp, hreply, htype⟩ := hack
      refine ⟨1, ?_, fun _ => Nat.one_pos⟩
      rw [hreply] at hstep
      simpa [written, hwrite, htype] using hstep
    · refine ⟨0, ?_, fun hout => absurd (acked_of_outcome hgood hout).2 hack⟩
      have hnone : written ⟨0, .frame f, (Engine.answer cfg ios s (.frame f)).1⟩ = [] := by
        simp only [written, hwrite]
        cases hreply : (Engine.answer cfg ios s (.frame f)).1 with
        | none => rfl
        | some resp => exact if_neg fun htype => hack ⟨resp, hreply, htype⟩
      rw [hnone] at hstep
      exact hstep
  · refine ⟨0, ?_, fun hout => absurd (acked_of_outcome hgood hout).1 hdelivers⟩
    rw [next, if_neg hdelivers, List.replicate_zero, List.append_nil]
    exact h

/-- **All addresses**: the peer takes the write some number of times. -/
theorem tells_tried (hcfg : cfg.Reliable) (hf : w.frame? = some f) (attempts : List Attempt) :
    ∀ {s : Engine × Nat} {ws : List ClientWrite}, s.1.Tells cfg ws →
      Along (next cfg ios f) (Good cfg ios f) (made f attempts) s →
      ∃ n, (runAlong (next cfg ios f) (made f attempts) s).1.Tells cfg
          (ws ++ List.replicate n w) ∧
        (tryAll f attempts = some true → 0 < n) := by
  induction attempts with
  | nil =>
      intro s ws h _
      exact ⟨0, by rwa [List.replicate_zero, List.append_nil], fun hout => by cases hout⟩
  | cons a attempts ih =>
      intro s ws h hgood
      obtain ⟨n, htells, hpos⟩ := next_tells hcfg hf h hgood.1
      -- only an address that came to nothing is followed by another one; its peer may have
      -- taken the write all the same
      by_cases hfalse : a.outcome f = some false
      · rw [made, if_pos hfalse] at hgood ⊢
        obtain ⟨m, htells', hpos'⟩ := ih htells hgood.2
        refine ⟨n + m, ?_, fun hout => ?_⟩
        · rwa [List.append_assoc, List.replicate_append_replicate] at htells'
        · rw [tryAll, hfalse] at hout
          exact Nat.lt_of_lt_of_le (hpos' hout) (Nat.le_add_left m n)
      · rw [made, if_neg hfalse]
        refine ⟨n, htells, fun hout => hpos ?_⟩
        rw [tryAll] at hout
        split at hout
        · next heq => exact absurd heq hfalse
        · exact hout

/-- A write that is taken again changes nothing. -/
theorem latest_replicate (k : Bytes) (ws : List ClientWrite) (w : ClientWrite) {n : Nat}
    (hn : 0 < n) : latest k (ws ++ List.replicate n w) = latest k (ws ++ [w]) := by
  induction n with
  | zero => cases hn
  | succ n ih =>
      rw [List.replicate_succ', ← List.append_assoc, latest_append_one]
      by_cases hzero : n = 0
      · subst hzero
        rw [List.replicate_zero, List.append_nil, latest_append_one]
      · rw [ih (Nat.pos_of_ne_zero hzero), latest_append_one]
        split <;> rfl

/-- Every `Get` answers what the last of these writes on its key asks for. -/
def AnswersAs (cfg : Config) (e : Engine) (ws : List ClientWrite) : Prop :=
  ∀ k, k ≠ [] → ∀ a, Answers (e.get cfg k) a ↔ latest k ws = a

/-- The peer takes the frame on its first address, but its reply is late; on
the second one it takes the same frame again. -/
def tookTwice : List Attempt :=
  [.talked [.took 1000 0] true [[]], .refused,
   .talked [.took 3 0, .took 1000 0] true
    [(encodeAck 2 (textBytes "OK")).bytes.take 5, (encodeAck 2 (textBytes "OK")).bytes.drop 5]]

end Transport

end VaultKV
