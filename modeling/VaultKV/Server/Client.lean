import VaultKV.Server.Serial

/-!
# Client — reading the answers (`vaultkv-cli.cpp`)

A client reads an answer in two steps: six bytes of header, then as many as
the header says, each by a loop around `recv` that goes on until it has them
all (`read_exact`). Unlike the server it knows no limit on the length. The
`n`-th answer it reads is the engine's answer to its `n`-th request, however
the bytes were cut on the way and whatever other clients were doing.
-/

namespace VaultKV

open Lib

namespace Client

/-- `read_exact`: the bytes, and what is left in the socket. Each entry of the
list is what one `recv` would return if it were asked for enough; an empty one
is the end of the stream. -/
def readExact : List Bytes → Nat → Option (Bytes × List Bytes)
  | [], len => if len = 0 then some ([], []) else none
  | c :: cs, len =>
      if len = 0 then some ([], c :: cs)
      else if c = [] then none
      else if c.length ≤ len then
        (readExact cs (len - c.length)).map fun r => (c ++ r.1, r.2)
      else some (c.take len, c.drop len :: cs)

/-- Header and payload of one answer. -/
def readResponse (chunks : List Bytes) : Option (Frame × List Bytes) := do
  let (hdr, chunks) ← readExact chunks 6
  let len := readLe 4 (hdr.drop 2)
  let (payload, chunks) ← if 0 < len then readExact chunks len else some ([], chunks)
  return ({ type := OpType.ofByte (hdr.getD 0 0), flags := hdr.getD 1 0, payload := payload },
    chunks)

/-- The answers of at most `n` requests. -/
def readResponses : Nat → List Bytes → List Frame
  | 0, _ => []
  | n + 1, chunks =>
      match readResponse chunks with
      | none => []
      | some (resp, chunks) => resp :: readResponses n chunks

/-! ## Chunks do not matter -/

/-- What is in the socket, without an end of the stream before it. -/
def Holds (chunks : List Bytes) (stream : Bytes) : Prop :=
  chunks.flatten = stream ∧ ∀ c ∈ chunks, c ≠ []

theorem readExact_some (chunks : List Bytes) :
    ∀ {stream : Bytes} {len : Nat}, Holds chunks stream → len ≤ stream.length →
      ∃ rest, readExact chunks len = some (stream.take len, rest) ∧
        Holds rest (stream.drop len) := by
  induction chunks with
  | nil =>
      rintro stream len ⟨rfl, -⟩ hlen
      have hzero : len = 0 := Nat.le_zero.mp hlen
      subst hzero
      exact ⟨[], rfl, rfl, fun c hc => by cases hc⟩
  | cons c cs ih =>
      rintro stream len ⟨rfl, hne⟩ hlen
      have hc : c ≠ [] := hne c List.mem_cons_self
      have hcs : Holds cs cs.flatten := ⟨rfl, fun c' hc' => hne c' (List.mem_cons_of_mem _ hc')⟩
      by_cases hzero : len = 0
      · subst hzero
        exact ⟨c :: cs, by simp [readExact], rfl, hne⟩
      rw [List.flatten_cons, List.length_append] at hlen
      rw [readExact, if_neg hzero, if_neg hc, List.flatten_cons]
      by_cases hle : c.length ≤ len
      · obtain ⟨rest, hrest, hholds⟩ := ih hcs (show len - c.length ≤ _ by omega)
        refine ⟨rest, ?_, ?_⟩
        · rw [if_pos hle, hrest, List.take_append, List.take_of_length_le hle]
          rfl
        · rw [List.drop_append, List.drop_eq_nil_of_le hle]
          exact hholds
      · have hlt : len ≤ c.length := by omega
        refine ⟨c.drop len :: cs, ?_, ?_, ?_⟩
        · rw [if_neg hle, List.take_append_of_le_length hlt]
        · rw [List.flatten_cons, List.drop_append_of_le_length hlt]
        · intro c' hc'
          rcases List.mem_cons.mp hc' with rfl | hc'
          · exact List.ne_nil_of_length_pos (by rw [List.length_drop]; omega)
          · exact hcs.2 c' hc'

theorem readExact_none (chunks : List Bytes) :
    ∀ {stream : Bytes} {len : Nat}, Holds chunks stream → stream.length < len →
      readExact chunks len = none := by
  induction chunks with
  | nil =>
      rintro stream len ⟨rfl, -⟩ hlen
      rw [readExact, if_neg (Nat.ne_of_gt (Nat.lt_of_le_of_lt (Nat.zero_le _) hlen))]
  | cons c cs ih =>
      rintro stream len ⟨rfl, hne⟩ hlen
      have hcs : Holds cs cs.flatten := ⟨rfl, fun c' hc' => hne c' (List.mem_cons_of_mem _ hc')⟩
      rw [List.flatten_cons, List.length_append] at hlen
      rw [readExact, if_neg (by omega), if_neg (hne c List.mem_cons_self), if_pos (by omega),
        ih hcs (show _ < len - c.length by omega)]
      rfl

/-- An answer at the front of the stream is read, and nothing behind it. -/
theorem readResponse_bytes {chunks : List Bytes} {resp : Frame} {tail : Bytes}
    (hlen : resp.payload.length < 2 ^ 32) (h : Holds chunks (resp.bytes ++ tail)) :
    ∃ rest, readResponse chunks = some (resp, rest) ∧ Holds rest tail := by
  have htotal := length_bytes resp
  obtain ⟨rest, hhdr, hrest⟩ := readExact_some chunks h
    (show 6 ≤ (resp.bytes ++ tail).length by rw [List.length_append]; omega)
  have hbytes : resp.bytes ++ tail = resp.type.toByte :: resp.flags ::
      (appendLe 4 resp.payload.length ++ (resp.payload ++ tail)) := by
    simp [Frame.bytes, encodeFrame]
  have hhead : (resp.bytes ++ tail).take 6 = resp.type.toByte :: resp.flags ::
      appendLe 4 resp.payload.length := by
    rw [hbytes, List.take_succ_cons, List.take_succ_cons, List.take_left' (length_appendLe ..)]
  have htail : (resp.bytes ++ tail).drop 6 = resp.payload ++ tail := by
    rw [hbytes, List.drop_succ_cons, List.drop_succ_cons, List.drop_left' (length_appendLe ..)]
  have hread : readLe 4 (appendLe 4 resp.payload.length) = resp.payload.length := by
    have := readLe_appendLe (show resp.payload.length < 256 ^ 4 by omega) []
    rwa [List.append_nil] at this
  rw [hhead] at hhdr
  rw [htail] at hrest
  by_cases hempty : resp.payload.length = 0
  · have hnil : resp.payload = [] := List.eq_nil_of_length_eq_zero hempty
    refine ⟨rest, ?_, ?_⟩
    · simp only [readResponse, hhdr, Option.bind_eq_bind, Option.bind_some, List.drop_succ_cons,
        List.drop_zero, hread, if_neg (show ¬ 0 < resp.payload.length by omega)]
      rw [← hnil]
      simp
    · rwa [hnil, List.nil_append] at hrest
  · obtain ⟨rest', hpay, hrest'⟩ := readExact_some rest hrest
      (show resp.payload.length ≤ _ by rw [List.length_append]; omega)
    rw [List.take_left] at hpay
    rw [List.drop_left] at hrest'
    refine ⟨rest', ?_, hrest'⟩
    simp only [readResponse, hhdr, Option.bind_eq_bind, Option.bind_some, List.drop_succ_cons,
      List.drop_zero, hread, if_pos (Nat.pos_of_ne_zero hempty), hpay]
    simp

/-- An answer that has not arrived in full is not read. -/
theorem readResponse_incomplete {chunks : List Bytes} {resp : Frame} {t : Bytes}
    (hlen : resp.payload.length < 2 ^ 32) (h : Holds chunks t) (ht : t <+: resp.bytes)
    (hshort : t.length < resp.bytes.length) : readResponse chunks = none := by
  obtain ⟨u, hu⟩ := ht
  have htotal := length_bytes resp
  by_cases hsix : t.length < 6
  · simp [readResponse, readExact_none chunks h hsix]
  obtain ⟨rest, hhdr, hrest⟩ := readExact_some chunks h (Nat.not_lt.mp hsix)
  -- the header is there, so the length is known
  have hread : readLe 4 ((t.take 6).drop 2) = resp.payload.length := by
    have htake : t.take 6 = resp.bytes.take 6 := by
      rw [← hu, List.take_append_of_le_length (Nat.not_lt.mp hsix)]
    have hbytes : (resp.bytes.take 6).drop 2 = appendLe 4 resp.payload.length := by
      simp only [Frame.bytes, encodeFrame, List.take_succ_cons, List.drop_succ_cons,
        List.drop_zero]
      exact List.take_left' (length_appendLe ..)
    have := readLe_appendLe (show resp.payload.length < 256 ^ 4 by omega) []
    rwa [List.append_nil, ← hbytes, ← htake] at this
  have hpos : 0 < resp.payload.length := by omega
  simp only [readResponse, hhdr, Option.bind_eq_bind, Option.bind_some, hread, if_pos hpos,
    readExact_none rest hrest (show (t.drop 6).length < resp.payload.length by
      rw [List.length_drop]; omega), Option.bind_none]

theorem append_of_prefix_of_le {a b t : Bytes} (h : t <+: a ++ b) (hle : a.length ≤ t.length) :
    ∃ t', t = a ++ t' ∧ t' <+: b := by
  obtain ⟨t', rfl⟩ := List.prefix_of_prefix_length_le (List.prefix_append a b) h hle
  exact ⟨t', rfl, (List.prefix_append_right_inj a).mp h⟩

/-- **What is read are the answers, in order.** -/
theorem readResponses_front (resps : List Frame) :
    ∀ {n : Nat} {chunks : List Bytes} {t : Bytes},
      (∀ resp ∈ resps, resp.payload.length < 2 ^ 32) → Holds chunks t →
      t <+: resps.flatMap Frame.bytes → readResponses n chunks <+: resps := by
  induction resps with
  | nil =>
      intro n chunks t _ h ht
      have hnil : t = [] := List.prefix_nil.mp ht
      subst hnil
      cases n with
      | zero => exact List.nil_prefix
      | succ n => simp [readResponses, readResponse, readExact_none chunks h (show 0 < 6 by omega)]
  | cons resp resps ih =>
      intro n chunks t hfit h ht
      have hresp := hfit resp List.mem_cons_self
      have hresps := fun r hr => hfit r (List.mem_cons_of_mem resp hr)
      rw [List.flatMap_cons] at ht
      cases n with
      | zero => exact List.nil_prefix
      | succ n =>
          by_cases hle : resp.bytes.length ≤ t.length
          · obtain ⟨t', rfl, ht'⟩ := append_of_prefix_of_le ht hle
            obtain ⟨rest, hread, hrest⟩ := readResponse_bytes hresp h
            rw [readResponses, hread]
            exact (List.prefix_cons_inj resp).mpr (ih hresps hrest ht')
          · have hin : t <+: resp.bytes :=
              List.prefix_of_prefix_length_le ht (List.prefix_append ..) (by omega)
            rw [readResponses, readResponse_incomplete hresp h hin (by omega)]
            exact List.nil_prefix

/-- Whoever waits for all answers reads them all. -/
theorem readResponses_all (resps : List Frame) :
    ∀ {chunks : List Bytes}, (∀ resp ∈ resps, resp.payload.length < 2 ^ 32) →
      Holds chunks (resps.flatMap Frame.bytes) → readResponses resps.length chunks = resps := by
  induction resps with
  | nil => intro chunks _ _; rfl
  | cons resp resps ih =>
      intro chunks hfit h
      rw [List.flatMap_cons] at h
      obtain ⟨rest, hread, hrest⟩ := readResponse_bytes (hfit resp List.mem_cons_self) h
      rw [List.length_cons, readResponses, hread]
      exact congrArg (resp :: ·)
        (ih (fun r hr => hfit r (List.mem_cons_of_mem resp hr)) hrest)

end Client

/-! ## Requests and answers -/

/-- What a client that sends whole frames has asked for are its first
frames. -/
theorem asked_front {requests : List Frame}
    (hfit : ∀ f ∈ requests, f.payload.length ≤ kMaxPayloadBytes) {batches : List Bytes}
    (h : batches.flatten <+: requests.flatMap Frame.bytes) :
    (asked batches).2 <+: requests.map Ask.frame := by
  obtain ⟨t, ht⟩ := h
  have hwhole : frames.Splits (batches.flatten ++ t) requests [] none := by
    have := splits_bytes hfit (show frameHead [] = .more from frameHead_nil)
    rwa [List.append_nil, ← ht] at this
  obtain ⟨fs, gs, rest, hfront, -, rfl⟩ := hwhole.of_append
  have hstart : frames.head [] = .more := frameHead_nil
  rw [asked, Framing.feed_eq tryParseFrames_parses batches _ hstart hfront, foldl_push_frames,
    List.nil_append, List.map_append]
  exact List.prefix_append ..

/-- The bytes of answers that were all given. -/
theorem flatMap_replyBytes {xs : List (Exchange Nat Ask (Option Frame))}
    (h : ∀ x ∈ xs, x.reply.isSome = true) :
    xs.flatMap (fun x => replyBytes x.reply) = (xs.filterMap Exchange.reply).flatMap Frame.bytes ∧
      (xs.filterMap Exchange.reply).map some = xs.map Exchange.reply := by
  induction xs with
  | nil => exact ⟨rfl, rfl⟩
  | cons x xs ih =>
      obtain ⟨hbytes, hmap⟩ := ih fun y hy => h y (List.mem_cons_of_mem _ hy)
      obtain ⟨resp, hresp⟩ := Option.isSome_iff_exists.mp (h x List.mem_cons_self)
      simp only [List.flatMap_cons, List.filterMap_cons, List.map_cons, hresp, hbytes, hmap]
      exact ⟨rfl, trivial⟩

/-- **A client reads its own answers, in the order of its requests.** A
client has sent frames, of which the server has received some front, in any
pieces; it has received some front of what the server sent, in any pieces.
Then what the server has answered on its connection are its first requests,
and what it reads are the answers to them, one after the other; once
everything has been sent and received, it reads them all. -/
theorem EpollServer.client_reads_its_answers (cfg : Config) (ios : Nat → WriteIo cfg.cipher)
    (e : Engine) (evs : List LoopStep)
    (halive : (EpollServer.run cfg ios evs { engine := e }).alive = true) (id : Nat)
    {requests : List Frame} (hfit : ∀ f ∈ requests, f.payload.length ≤ kMaxPayloadBytes)
    (hreceived : (batchesOf id (EpollServer.run cfg ios evs { engine := e }).log).flatten
      <+: requests.flatMap Frame.bytes)
    (hreplies : ∀ x ∈ exchangesOf id
      (history (EpollServer.run cfg ios evs { engine := e }).log), ∀ resp ∈ x.reply,
        resp.payload.length < 2 ^ 32)
    {chunks : List Bytes} (hchunks : ∀ c ∈ chunks, c ≠ [])
    (hread : chunks.flatten <+: sentTo id (EpollServer.run cfg ios evs { engine := e }).log) :
    let log := (EpollServer.run cfg ios evs { engine := e }).log
    let calls := exchangesOf id (history log)
    calls.map Exchange.request <+: requests.map Ask.frame ∧
    (∀ n, (Client.readResponses n chunks).map some <+: calls.map Exchange.reply) ∧
    (chunks.flatten = repliesTo id log →
      (Client.readResponses calls.length chunks).map some = calls.map Exchange.reply) := by
  intro log calls
  have hbooks := books_run cfg ios halive
  have hasks : calls.map Exchange.request = (asked (batchesOf id log)).2 :=
    (List.append_nil _).symm.trans (hbooks.asks id)
  have hsome : ∀ x ∈ calls, x.reply.isSome = true := fun x hx =>
    hbooks.answered x (List.mem_of_mem_filter hx)
  obtain ⟨hbytes, hmap⟩ := flatMap_replyBytes hsome
  have hresps : ∀ resp ∈ calls.filterMap Exchange.reply, resp.payload.length < 2 ^ 32 := by
    intro resp hresp
    obtain ⟨x, hx, hxr⟩ := List.mem_filterMap.mp hresp
    exact hreplies x hx resp hxr
  have hstream : repliesTo id log = (calls.filterMap Exchange.reply).flatMap Frame.bytes :=
    hbytes
  refine ⟨?_, fun n => ?_, fun hall => ?_⟩
  · rw [hasks]
    exact asked_front hfit hreceived
  · rw [← hmap]
    refine (Client.readResponses_front _ hresps ⟨rfl, hchunks⟩ ?_).map some
    rw [← hstream]
    exact hread.trans (hbooks.sent id)
  · have hlen : (calls.filterMap Exchange.reply).length = calls.length := by
      have := congrArg List.length hmap
      rwa [List.length_map, List.length_map] at this
    rw [← hmap, ← hlen, Client.readResponses_all _ hresps ⟨hall.trans hstream, hchunks⟩]

/-- The two connections again, until the first socket has taken all of its
answer. Its client is about to send a `SCAN`. -/
def firstAnswered : List Happened :=
  (EpollServer.run (smallConfig 1000) (fun _ => .quiet (0 : Nat))
    (twoClients ++ [.ready 5 { output := true } [] [.took 100 5]])
    { engine := Small.opened 1000 }).log

theorem firstAnswered_read :
    let pong := encodeAck 0 (textBytes "PONG")
    sentTo 0 firstAnswered = pong.bytes ∧
    (Client.readResponses 1 [pong.bytes.take 5, pong.bytes.drop 5]).map some
      = (exchangesOf 0 (history firstAnswered)).map Exchange.reply := by
  refine ⟨by decide +kernel, ?_⟩
  have hall := EpollServer.client_reads_its_answers (smallConfig 1000)
    (fun _ => .quiet (0 : Nat)) (Small.opened 1000)
    (twoClients ++ [.ready 5 { output := true } [] [.took 100 5]]) (by decide +kernel) 0
    (show ∀ f ∈ ([⟨.ping, 0, []⟩, ⟨.scan, 0, [0, 0, 7, 0]⟩] : List Frame), f.payload.length
      ≤ kMaxPayloadBytes by decide) (by decide +kernel) (by decide +kernel)
    (show ∀ c ∈ [(encodeAck 0 (textBytes "PONG")).bytes.take 5,
      (encodeAck 0 (textBytes "PONG")).bytes.drop 5], c ≠ [] by decide +kernel)
    (by decide +kernel)
  exact hall.2.2 (by decide +kernel)

end VaultKV
