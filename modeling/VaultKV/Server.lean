import VaultKV.Framing
import VaultKV.Engine.Runs

/-!
# Server — one connection (`server.cpp`)

Each time a socket is readable, `EpollServer::Start` appends everything
there is to the connection's read buffer, parses it, and either handles
the frames in order or answers a parse error. A parse error discards the
frames in front of it TOGETHER with the batch's responses and leaves the
buffer as it is, so the same error is answered again with every further
batch. Where no such error occurs, the responses are a function of the
stream alone.
-/

namespace VaultKV

open Lib

/-- A connection with the engine behind it: what was appended to the write
buffer, how many frames the engine has handled, and whether the process
still runs. -/
structure Session where
  wbuf : Bytes := []
  engine : Engine
  handled : Nat := 0
  alive : Bool := true

namespace Session

variable (cfg : Config) (ios : Nat → WriteIo cfg.cipher)

/-- `HandleFrame` on one frame; `ios n` is what the `n`-th frame the engine
handles meets outside the program. -/
def handle (s : Session) (frame : Frame) : Session :=
  if s.alive = false then s
  else
    match s.engine.handleFrame cfg (ios s.handled) frame with
    | (some resp, e) =>
        { s with wbuf := s.wbuf ++ resp.bytes, engine := e, handled := s.handled + 1 }
    | (none, e) => { s with engine := e, handled := s.handled + 1, alive := false }

/-- The answer to a parse error. -/
def reject (s : Session) (err : String) : Session :=
  if s.alive = false then s
  else { s with wbuf := s.wbuf ++ (encodeError 400 (textBytes err)).bytes }

/-- The read branch of `Start`, once for each batch: the read buffer and the
session afterwards. -/
def serve (s : Session) (batches : List Bytes) : Bytes × Session :=
  Framing.feed tryParseFrames (handle cfg ios) reject [] s batches

/-- What a client is answered over all batches, and the engine in the
end. -/
def outcome (e : Engine) (batches : List Bytes) : Bytes × Engine :=
  let r := serve cfg ios { engine := e } batches
  (r.2.wbuf, r.2.engine)

end Session

/-! ## Streams without an oversized length -/

section

variable (cfg : Config) (ios : Nat → WriteIo cfg.cipher) (e : Engine)

theorem tryParseFrames_fst {stream : Bytes} {fs : List Frame} {rest : Bytes}
    {stop : Option String} (h : frames.Splits stream fs rest stop) :
    (tryParseFrames stream).1 = stop := by rw [tryParseFrames_parses h]

theorem outcome_good {stream rest : Bytes} {fs : List Frame}
    (h : frames.Splits stream fs rest none) {batches : List Bytes}
    (hb : batches.flatten = stream) :
    Session.outcome cfg ios e batches
      = ((fs.foldl (Session.handle cfg ios) { engine := e }).wbuf,
         (fs.foldl (Session.handle cfg ios) { engine := e }).engine) := by
  have hstart : frames.head [] = .more := frameHead_nil
  have h : frames.Splits ([] ++ batches.flatten) fs rest none := by rwa [hb]
  rw [Session.outcome, Session.serve, Framing.feed_eq tryParseFrames_parses batches _ hstart h]

/-! ## Streams with one -/

/-- Whatever the error, its answer is not empty. -/
theorem length_reject_pos (err : String) :
    0 < (encodeError 400 (textBytes err)).bytes.length := by
  rw [length_bytes]
  omega

/-- The whole stream in one batch is answered by one error. -/
theorem outcome_bad_whole {stream rest : Bytes} {fs : List Frame} {err : String}
    (h : frames.Splits stream fs rest (some err)) :
    (Session.outcome cfg ios e [stream]).1 = (encodeError 400 (textBytes err)).bytes := by
  have h : frames.Splits ([] ++ stream) fs rest (some err) := h
  rw [Session.outcome, Session.serve, Framing.feed_bad tryParseFrames_parses h]
  rfl

/-- In two batches, the second of which finds the error the first one has
found, it is answered twice. -/
theorem outcome_bad_twice {b rest : Bytes} {fs : List Frame} {err : String}
    (h : frames.Splits b fs rest (some err)) (b' : Bytes) :
    (Session.outcome cfg ios e [b, b']).1.length
      = 2 * (encodeError 400 (textBytes err)).bytes.length := by
  have h : frames.Splits ([] ++ b) fs rest (some err) := h
  rw [Session.outcome, Session.serve, Framing.feed_bad tryParseFrames_parses h,
    Framing.feed_bad tryParseFrames_parses (h.append_bad b')]
  show ([] ++ _ ++ _ : Bytes).length = _
  rw [List.nil_append, List.length_append]
  omega

/-- With the first frame in a batch of its own, that frame is handled. -/
theorem outcome_bad_first {b b' rest : Bytes} {f : Frame} {fs : List Frame} {err : String}
    (h : frames.Splits b [f] [] none) (h' : frames.Splits b' fs rest (some err)) :
    (Session.outcome cfg ios e [b, b']).1 ≠ (encodeError 400 (textBytes err)).bytes := by
  have h : frames.Splits ([] ++ b) [f] [] none := h
  have h' : frames.Splits ([] ++ b') fs rest (some err) := h'
  rw [Session.outcome, Session.serve, Framing.feed_good tryParseFrames_parses h,
    Framing.feed_bad tryParseFrames_parses h']
  show (Session.reject (Session.handle cfg ios { engine := e } f) err).wbuf ≠ _
  intro heq
  have hlen := congrArg List.length heq
  have hpos := length_reject_pos err
  rw [Session.handle, if_neg Bool.noConfusion] at hlen
  split at hlen
  · next resp e' _ =>
    have hresp : 0 < resp.bytes.length := by rw [length_bytes]; omega
    rw [Session.reject, if_neg Bool.noConfusion] at hlen
    rw [List.length_append, List.length_append] at hlen
    omega
  · rw [Session.reject, if_pos rfl] at hlen
    rw [← hlen] at hpos
    exact absurd hpos (Nat.lt_irrefl 0)

/-- A lone oversized header is answered once, by the batch that completes
it. -/
theorem serve_bad_header {stream : Bytes} {err : String} (hlen : stream.length = 6)
    (hbad : frames.head stream = .bad err) (batches : List Bytes) :
    ∀ {buf : Bytes} (s : Session), buf.length < 6 → buf ++ batches.flatten = stream →
      (∀ b ∈ batches, b ≠ []) →
      Framing.feed tryParseFrames (Session.handle cfg ios) Session.reject buf s batches
        = (stream, s.reject err) := by
  induction batches with
  | nil =>
      intro buf s hshort hcat _
      rw [List.flatten_nil, List.append_nil] at hcat
      rw [hcat] at hshort
      omega
  | cons b bs ih =>
      intro buf s hshort hcat hne
      rw [List.flatten_cons, ← List.append_assoc] at hcat
      have htotal : (buf ++ b).length + bs.flatten.length = 6 := by
        rw [← hlen, ← hcat]
        exact List.length_append.symm
      have hne' : ∀ b ∈ bs, b ≠ [] := fun b' hb' => hne b' (List.mem_cons_of_mem _ hb')
      cases bs with
      | nil =>
          rw [List.flatten_nil, List.append_nil] at hcat
          rw [← hcat] at hbad
          rw [Framing.feed_bad tryParseFrames_parses (.bad hbad), hcat]
          rfl
      | cons c cs =>
          have hc : 0 < c.length := List.length_pos_of_ne_nil (hne' c (List.mem_cons_self ..))
          have hflat : (c :: cs).flatten.length = c.length + cs.flatten.length := by
            rw [List.flatten_cons, List.length_append]
          have hmore : frames.head (buf ++ b) = .more := frameHead_short (by omega)
          rw [Framing.feed_good tryParseFrames_parses (.more hmore)]
          exact ih s (by omega) hcat hne'

theorem outcome_bad_header {stream : Bytes} {err : String} (hlen : stream.length = 6)
    (hbad : frames.head stream = .bad err) {batches : List Bytes}
    (hb : batches.flatten = stream) (hne : ∀ b ∈ batches, b ≠ []) :
    Session.outcome cfg ios e batches = ((encodeError 400 (textBytes err)).bytes, e) := by
  have hshort : ([] : Bytes).length < 6 := Nat.zero_lt_succ 5
  rw [Session.outcome, Session.serve, serve_bad_header cfg ios hlen hbad batches _ hshort hb hne]
  rfl

theorem ne_nil_of_splits_bad {b rest : Bytes} {fs : List Frame} {err : String}
    (h : frames.Splits b fs rest (some err)) : b ≠ [] := by
  rintro rfl
  cases (h.unique (.more frameHead_nil)).2.2

/-- A stream with an oversized length starts with it, or can be cut behind
its first frame. -/
theorem splits_bad_cases {stream rest : Bytes} {fs : List Frame} {err : String}
    (h : frames.Splits stream fs rest (some err)) :
    (frames.head stream = .bad err ∧ 6 ≤ stream.length) ∨
      ∃ f gs b b', stream = b ++ b' ∧ 6 ≤ b.length ∧
        frames.Splits b [f] [] none ∧ frames.Splits b' gs rest (some err) := by
  cases h with
  | bad hb => exact Or.inl ⟨hb, (frameHead_bad hb).1⟩
  | @frame _ _ f n gs _ hf hrest =>
      obtain ⟨hn, hle, -, -⟩ := frameHead_frame hf
      have hlen : (stream.take n).length = n := by rw [List.length_take]; omega
      refine Or.inr ⟨f, gs, stream.take n, stream.drop n, (List.take_append_drop ..).symm,
        by omega, ?_, hrest⟩
      refine .frame (frameHead_take hf) ?_
      rw [List.drop_eq_nil_of_le (Nat.le_of_eq hlen)]
      exact .more frameHead_nil

/-! ## Segmentation -/

/-- Two ways of cutting a stream into non-empty batches with different
answers, unless the stream is a lone oversized header. -/
theorem exists_outcome_ne {stream rest : Bytes} {fs : List Frame} {err : String}
    (h : frames.Splits stream fs rest (some err)) (hlen : stream.length ≠ 6) :
    ∃ b b', b ++ b' = stream ∧ b ≠ [] ∧ b' ≠ [] ∧
      Session.outcome cfg ios e [stream] ≠ Session.outcome cfg ios e [b, b'] := by
  have hwhole := outcome_bad_whole cfg ios e h
  rcases splits_bad_cases h with ⟨hbad, hsix⟩ | ⟨f, gs, b, b', rfl, hb, h₁, h₂⟩
  · -- the header alone, then the rest: the error is answered twice
    have hhead : frames.Splits (stream.take 6) [] (stream.take 6) (some err) :=
      .bad (frameHead_bad_take hbad)
    refine ⟨stream.take 6, stream.drop 6, List.take_append_drop .., ne_nil_of_splits_bad hhead,
      List.ne_nil_of_length_pos (by rw [List.length_drop]; omega), fun heq => ?_⟩
    have htwice := outcome_bad_twice cfg ios e hhead (stream.drop 6)
    rw [← heq, hwhole] at htwice
    have := length_reject_pos err
    omega
  · refine ⟨b, b', rfl, List.ne_nil_of_length_pos (by omega), ne_nil_of_splits_bad h₂, ?_⟩
    intro heq
    apply outcome_bad_first cfg ios e h₁ h₂
    rw [← heq, hwhole]

/-- **Responses depend on segmentation only through an oversized length.**
All ways of cutting a stream into non-empty batches give the same answers
and the same engine exactly when `TryParseFrames` accepts the stream as a
whole or the stream is six bytes, an oversized header alone; with batches
that may be empty, exactly when it accepts the stream. -/
theorem segmentation_independent_iff (cfg : Config) (ios : Nat → WriteIo cfg.cipher)
    (e : Engine) (stream : Bytes) :
    ((∀ bs bs', bs.flatten = stream → bs'.flatten = stream →
        (∀ b ∈ bs, b ≠ []) → (∀ b ∈ bs', b ≠ []) →
        Session.outcome cfg ios e bs = Session.outcome cfg ios e bs') ↔
      (tryParseFrames stream).1 = none ∨ stream.length = 6) ∧
    ((∀ bs bs', bs.flatten = stream → bs'.flatten = stream →
        Session.outcome cfg ios e bs = Session.outcome cfg ios e bs') ↔
      (tryParseFrames stream).1 = none) := by
  obtain ⟨fs, rest, stop, h⟩ := frames.exists_splits stream
  rw [tryParseFrames_fst h]
  cases stop with
  | none =>
      have hsame : ∀ bs bs' : List Bytes, bs.flatten = stream → bs'.flatten = stream →
          Session.outcome cfg ios e bs = Session.outcome cfg ios e bs' := fun bs bs' hb hb' =>
        (outcome_good cfg ios e h hb).trans (outcome_good cfg ios e h hb').symm
      exact ⟨iff_of_true (fun bs bs' hb hb' _ _ => hsame bs bs' hb hb') (Or.inl rfl),
        iff_of_true hsame rfl⟩
  | some err =>
      refine ⟨⟨fun hall => ?_, fun hsix => ?_⟩, iff_of_false (fun hall => ?_) (by simp)⟩
      · right
        by_contra hlen
        obtain ⟨b, b', hcat, hb, hb', hne⟩ := exists_outcome_ne cfg ios e h hlen
        have hstream : stream ≠ [] := ne_nil_of_splits_bad h
        refine hne (hall _ _ ?_ ?_ ?_ ?_)
        · simp
        · simp [hcat]
        · simpa using hstream
        · simp [hb, hb']
      · have hlen : stream.length = 6 := hsix.resolve_left (by simp)
        have hbad : frames.head stream = .bad err := by
          rcases splits_bad_cases h with ⟨hbad, -⟩ | ⟨f, gs, b, b', rfl, hb, -, h₂⟩
          · exact hbad
          · have := List.length_pos_of_ne_nil (ne_nil_of_splits_bad h₂)
            rw [List.length_append] at hlen
            omega
        intro bs bs' hb hb' hne hne'
        rw [outcome_bad_header cfg ios e hlen hbad hb hne,
          outcome_bad_header cfg ios e hlen hbad hb' hne']
      · -- an empty batch behind the stream repeats the error
        have heq := hall [stream] [stream, []] (by simp) (by simp)
        have htwice := outcome_bad_twice cfg ios e h []
        rw [← heq, outcome_bad_whole cfg ios e h] at htwice
        have := length_reject_pos err
        omega

end

/-- A PING, then a header that announces 16 MiB. -/
def pingThenOversized : Bytes := [0x01, 0, 0, 0, 0, 0, 0x02, 0, 0, 0, 0, 1]

/-- In one batch the PING is not answered; in a batch of its own it is. -/
theorem pingThenOversized_differs :
    (Session.outcome (smallConfig 1000) (fun _ => .quiet (0 : Nat)) (Small.opened 1000)
        [pingThenOversized]).1
      = (encodeError 400 (textBytes "payload too large")).bytes ∧
    (Session.outcome (smallConfig 1000) (fun _ => .quiet (0 : Nat)) (Small.opened 1000)
        [pingThenOversized.take 6, pingThenOversized.drop 6]).1
      = (encodeAck 0 (textBytes "PONG")).bytes
        ++ (encodeError 400 (textBytes "payload too large")).bytes := by
  decide +kernel

end VaultKV
