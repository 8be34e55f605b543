import VaultKV.Server.Loop

/-!
# Server — many clients, one order

Whatever the clients send, in whatever pieces it arrives and however the
sockets take the answers: the engine sees ONE sequence of requests, the
answers are those of the engine given this sequence, and each connection's own
part of it is what its bytes ask for, in their order. A connection is sent
nothing but the answers to its own requests, in order; what it has not been
sent is in its write buffer as long as it is open.
-/

namespace VaultKV

open Lib

/-! ## The log grows -/

attribute [simp] Happened.exchange? Happened.batchOf Happened.sentTo

section

variable (client : Nat) (log more : List Happened) (x : Happened)

@[simp] theorem history_append : history (log ++ more) = history log ++ history more :=
  List.filterMap_append ..

@[simp] theorem history_singleton : history [x] = x.exchange?.toList := by
  cases x <;> rfl

@[simp] theorem batchesOf_append :
    batchesOf client (log ++ more) = batchesOf client log ++ batchesOf client more :=
  List.flatMap_append ..

@[simp] theorem batchesOf_singleton : batchesOf client [x] = x.batchOf client :=
  List.append_nil _

@[simp] theorem sentTo_append :
    sentTo client (log ++ more) = sentTo client log ++ sentTo client more :=
  List.flatMap_append ..

@[simp] theorem sentTo_singleton : sentTo client [x] = x.sentTo client :=
  List.append_nil _

theorem asksOf_append :
    asksOf client (log ++ more) = asksOf client log ++ asksOf client more := by
  simp [asksOf]

theorem repliesTo_append :
    repliesTo client (log ++ more) = repliesTo client log ++ repliesTo client more := by
  simp [repliesTo]

end

theorem asksOf_answered (client : Nat) (a : Ask) (reply : Option Frame) :
    asksOf client [.answered client a reply] = [a] := by
  simp [asksOf, exchangesOf]

theorem repliesTo_answered (client : Nat) (a : Ask) (reply : Option Frame) :
    repliesTo client [.answered client a reply] = replyBytes reply := by
  simp [repliesTo, exchangesOf]

/-- What happened does not concern a connection. -/
structure Foreign (client : Nat) (more : List Happened) : Prop where
  batches : batchesOf client more = []
  sent : sentTo client more = []
  exchanges : exchangesOf client (history more) = []

namespace Foreign

variable {client : Nat} {more : List Happened} (h : Foreign client more) (log : List Happened)

include h

theorem batchesOf_eq : batchesOf client (log ++ more) = batchesOf client log := by
  rw [batchesOf_append, h.batches, List.append_nil]

theorem sentTo_eq : sentTo client (log ++ more) = sentTo client log := by
  rw [sentTo_append, h.sent, List.append_nil]

theorem exchangesOf_eq :
    exchangesOf client (history (log ++ more)) = exchangesOf client (history log) := by
  rw [history_append, exchangesOf_append, h.exchanges, List.append_nil]

theorem append {log : List Happened} (hlog : Foreign client log) : Foreign client (log ++ more) :=
  ⟨(h.batchesOf_eq log).trans hlog.batches, (h.sentTo_eq log).trans hlog.sent,
    (h.exchangesOf_eq log).trans hlog.exchanges⟩

theorem asksOf_eq : asksOf client (log ++ more) = asksOf client log := by
  rw [asksOf, h.exchangesOf_eq, asksOf]

theorem repliesTo_eq : repliesTo client (log ++ more) = repliesTo client log := by
  rw [repliesTo, h.exchangesOf_eq, repliesTo]

end Foreign

theorem foreign_accepted (client id fd : Nat) : Foreign client [.accepted id fd] := by
  constructor <;> simp

theorem foreign_closed (client id fd : Nat) : Foreign client [.closed id fd] := by
  constructor <;> simp

theorem foreign_parsed {client id : Nat} (h : id ≠ client) (batch : Bytes) :
    Foreign client [.parsed id batch] := by
  constructor <;> simp [h]

theorem foreign_answered {client id : Nat} (h : id ≠ client) (a : Ask) (reply : Option Frame) :
    Foreign client [.answered id a reply] := by
  constructor <;> simp [exchangesOf, h]

theorem foreign_sent {client id : Nat} (h : id ≠ client) (bytes : Bytes) :
    Foreign client [.sent id bytes] := by
  constructor <;> simp [h]

/-! ## One more batch -/

/-- What the parser's result asks for is what is pushed for it. -/
theorem foldl_push_frames (fs : List Frame) :
    ∀ out : List Ask, fs.foldl (fun out f => out ++ [.frame f]) out = out ++ fs.map .frame := by
  induction fs with
  | nil => intro out; simp
  | cons f fs ih => intro out; simp [ih]

theorem asked_append_one (batches : List Bytes) (batch : Bytes) :
    asked (batches ++ [batch])
      = ((tryParseFrames ((asked batches).1 ++ batch)).2.2,
         (asked batches).2 ++ asksIn (tryParseFrames ((asked batches).1 ++ batch))) := by
  have hfeed : asked (batches ++ [batch])
      = Framing.feed tryParseFrames (fun out f => out ++ [.frame f])
          (fun out err => out ++ [.malformed err]) (asked batches).1 (asked batches).2 [batch] :=
    Framing.feed_append [] [] batches [batch]
  rw [hfeed, Framing.feed_one]
  rcases tryParseFrames ((asked batches).1 ++ batch) with ⟨stop, fs, rest⟩
  cases stop with
  | none => rw [foldl_push_frames]; rfl
  | some err => rfl

/-! ## The books -/

/-- **The buffers agree with what has happened.** `todo` is what has been
parsed and not yet answered. -/
structure Books (todo : Nat → List Ask) (s : EpollServer) : Prop where
  fresh : ∀ {id}, s.accepted ≤ id → Foreign id s.log
  known : ∀ {fd c}, s.conns.find fd = some c → c.id < s.accepted
  apart : ∀ {fd fd' c c'}, s.conns.find fd = some c → s.conns.find fd' = some c' →
    c.id = c'.id → fd = fd'
  asks : ∀ id, asksOf id s.log ++ todo id = (asked (batchesOf id s.log)).2
  sent : ∀ id, sentTo id s.log <+: repliesTo id s.log
  rbuf : ∀ {fd c}, s.conns.find fd = some c → c.rbuf = (asked (batchesOf c.id s.log)).1
  wbuf : ∀ {fd c}, s.conns.find fd = some c →
    sentTo c.id s.log ++ c.wbuf = repliesTo c.id s.log
  answered : ∀ x ∈ history s.log, x.reply.isSome = true

namespace Books

variable {todo todo' : Nat → List Ask} {s s' : EpollServer} {fd : Nat} {c c' : Connection}
  {more : List Happened}

/-- **One connection goes on**, and nothing happens to the others. -/
theorem put (h : Books todo s) (hfind : s.conns.find fd = some c)
    (hconns : s'.conns = s.conns.insert fd c') (hid : c'.id = c.id) (haccepted : s'.accepted = s.accepted)
    (hlog : s'.log = s.log ++ more) (hforeign : ∀ id, c.id ≠ id → Foreign id more)
    (htodo : ∀ id, c.id ≠ id → todo' id = todo id)
    (hasks : asksOf c.id s'.log ++ todo' c.id = (asked (batchesOf c.id s'.log)).2)
    (hrbuf : c'.rbuf = (asked (batchesOf c.id s'.log)).1)
    (hwbuf : sentTo c.id s'.log ++ c'.wbuf = repliesTo c.id s'.log)
    (hanswered : ∀ x ∈ history more, x.reply.isSome = true) : Books todo' s' := by
  have hknown := h.known hfind
  -- a connection of the new state is the one that went on, or an old one under another number
  have hold : ∀ {fd₁ c₁}, s'.conns.find fd₁ = some c₁ →
      (fd₁ = fd ∧ c₁ = c') ∨ (fd₁ ≠ fd ∧ s.conns.find fd₁ = some c₁ ∧ c.id ≠ c₁.id) := by
    intro fd₁ c₁ h₁
    rw [hconns, SortedMap.find_insert] at h₁
    split at h₁
    · next heq => exact .inl ⟨heq, (Option.some.inj h₁).symm⟩
    · next hne => exact .inr ⟨hne, h₁, fun hsame => hne (h.apart hfind h₁ hsame).symm⟩
  constructor
  case fresh =>
    intro id hle
    rw [haccepted] at hle
    rw [hlog]
    exact (hforeign id (by omega)).append (h.fresh hle)
  case known =>
    intro fd₁ c₁ h₁
    rw [haccepted]
    rcases hold h₁ with ⟨-, rfl⟩ | ⟨-, h₁, -⟩
    · rw [hid]; exact hknown
    · exact h.known h₁
  case apart =>
    intro fd₁ fd₂ c₁ c₂ h₁ h₂ hsame
    rcases hold h₁ with ⟨rfl, rfl⟩ | ⟨-, h₁, hne₁⟩ <;>
      rcases hold h₂ with ⟨rfl, rfl⟩ | ⟨-, h₂, hne₂⟩
    · rfl
    · exact absurd (hid.symm.trans hsame) hne₂
    · exact absurd (hid.symm.trans hsame.symm) hne₁
    · exact h.apart h₁ h₂ hsame
  case asks =>
    intro id
    by_cases heq : c.id = id
    · subst heq; exact hasks
    · rw [hlog, (hforeign id heq).asksOf_eq, (hforeign id heq).batchesOf_eq, htodo id heq]
      exact h.asks id
  case sent =>
    intro id
    by_cases heq : c.id = id
    · subst heq; exact ⟨_, hwbuf⟩
    · rw [hlog, (hforeign id heq).sentTo_eq, (hforeign id heq).repliesTo_eq]
      exact h.sent id
  case rbuf =>
    intro fd₁ c₁ h₁
    rcases hold h₁ with ⟨-, rfl⟩ | ⟨-, h₁, hne⟩
    · rw [hid]; exact hrbuf
    · rw [hlog, (hforeign _ hne).batchesOf_eq]
      exact h.rbuf h₁
  case wbuf =>
    intro fd₁ c₁ h₁
    rcases hold h₁ with ⟨-, rfl⟩ | ⟨-, h₁, hne⟩
    · rw [hid]; exact hwbuf
    · rw [hlog, (hforeign _ hne).sentTo_eq, (hforeign _ hne).repliesTo_eq]
      exact h.wbuf h₁
  case answered =>
    intro x hx
    rw [hlog, history_append] at hx
    exact (List.mem_append.mp hx).elim (h.answered x) (hanswered x)

/-- **Connections go**, and nothing else happens. -/
theorem drop (h : Books todo s) (hconns : ∀ {fd c}, s'.conns.find fd = some c →
      s.conns.find fd = some c) (haccepted : s'.accepted = s.accepted)
    (hlog : s'.log = s.log ++ more) (hforeign : ∀ id, Foreign id more) : Books todo s' := by
  have hsilent : history more = [] := by
    by_contra hne
    obtain ⟨x, hx⟩ := List.exists_mem_of_ne_nil _ hne
    have hown : x ∈ exchangesOf x.client (history more) := List.mem_filter.mpr ⟨hx, by simp⟩
    rw [(hforeign x.client).exchanges] at hown
    cases hown
  constructor
  case fresh =>
    intro id hle
    rw [haccepted] at hle
    rw [hlog]
    exact (hforeign id).append (h.fresh hle)
  case known => intro fd c hc; rw [haccepted]; exact h.known (hconns hc)
  case apart => intro fd fd' c c' hc hc'; exact h.apart (hconns hc) (hconns hc')
  case asks =>
    intro id
    rw [hlog, (hforeign id).asksOf_eq, (hforeign id).batchesOf_eq]
    exact h.asks id
  case sent =>
    intro id
    rw [hlog, (hforeign id).sentTo_eq, (hforeign id).repliesTo_eq]
    exact h.sent id
  case rbuf =>
    intro fd c hc
    rw [hlog, (hforeign c.id).batchesOf_eq]
    exact h.rbuf (hconns hc)
  case wbuf =>
    intro fd c hc
    rw [hlog, (hforeign c.id).sentTo_eq, (hforeign c.id).repliesTo_eq]
    exact h.wbuf (hconns hc)
  case answered =>
    rw [hlog, history_append, hsilent, List.append_nil]
    exact h.answered

theorem closeConn (h : Books todo s) (fd : Nat) : Books todo (s.closeConn fd) := by
  unfold EpollServer.closeConn
  cases hfind : s.conns.find fd with
  | none => exact h
  | some c =>
      refine h.drop (fun {fd' c'} hc' => ?_) rfl rfl fun id => foreign_closed id c.id fd
      rw [SortedMap.find_erase] at hc'
      split at hc'
      · cases hc'
      · exact hc'

theorem sweep (h : Books todo s) (now : Nat) : Books todo (s.sweep now) := by
  unfold EpollServer.sweep
  apply List.foldlRecOn _ _ h
  intro s h fd _
  exact h.closeConn fd

theorem accept (h : Books todo s) (fd now : Nat) : Books todo (s.accept fd now) := by
  -- nothing is known yet of the number the new connection gets
  have hnoted : Books todo { s with log := s.log ++ [.accepted s.accepted fd] } :=
    h.drop (fun hc => hc) rfl rfl fun id => foreign_accepted id s.accepted fd
  have hnew : Foreign s.accepted (s.accept fd now).log := hnoted.fresh (Nat.le_refl s.accepted)
  have hold : ∀ {fd₁ c₁}, (s.accept fd now).conns.find fd₁ = some c₁ →
      (fd₁ = fd ∧ c₁ = { id := s.accepted, lastActivity := now }) ∨
        s.conns.find fd₁ = some c₁ := by
    intro fd₁ c₁ h₁
    rw [EpollServer.accept, SortedMap.find_insert] at h₁
    split at h₁
    · next heq => exact .inl ⟨heq, (Option.some.inj h₁).symm⟩
    · exact .inr h₁
  constructor
  case fresh => intro id hle; exact hnoted.fresh (Nat.le_of_succ_le hle)
  case known =>
    intro fd₁ c₁ h₁
    rcases hold h₁ with ⟨-, rfl⟩ | h₁
    · exact Nat.lt_succ_self _
    · exact Nat.lt_succ_of_lt (h.known h₁)
  case apart =>
    intro fd₁ fd₂ c₁ c₂ h₁ h₂ hsame
    rcases hold h₁ with ⟨hfd₁, rfl⟩ | hold₁ <;> rcases hold h₂ with ⟨hfd₂, rfl⟩ | hold₂
    · rw [hfd₁, hfd₂]
    · exact absurd hsame (Nat.ne_of_gt (h.known hold₂))
    · exact absurd hsame (Nat.ne_of_lt (h.known hold₁))
    · exact h.apart hold₁ hold₂ hsame
  case asks => exact hnoted.asks
  case sent => exact hnoted.sent
  case rbuf =>
    intro fd₁ c₁ h₁
    rcases hold h₁ with ⟨-, rfl⟩ | h₁
    · show [] = (asked (batchesOf s.accepted _)).1
      rw [hnew.batches]; rfl
    · exact hnoted.rbuf h₁
  case wbuf =>
    intro fd₁ c₁ h₁
    rcases hold h₁ with ⟨-, rfl⟩ | h₁
    · show sentTo s.accepted _ ++ [] = repliesTo s.accepted _
      rw [hnew.sent, repliesTo, hnew.exchanges]; rfl
    · exact hnoted.wbuf h₁
  case answered => exact hnoted.answered

end Books

/-! ## The loops around `recv` and `send` -/

namespace Connection

/-- The batch is what the read buffer gains. -/
theorem recvAll_some {rs : List Recv} {c c' : Connection} {batch : Bytes}
    (h : c.recvAll rs = some (batch, c')) :
    c'.rbuf = c.rbuf ++ batch ∧ c'.wbuf = c.wbuf ∧ c'.id = c.id := by
  induction rs generalizing c batch with
  | nil => cases h; simp
  | cons r rs ih =>
      cases r with
      | data bytes now =>
          rw [recvAll] at h
          split at h
          · cases h
          · obtain ⟨⟨more, c₁⟩, hrest, heq⟩ := Option.map_eq_some_iff.mp h
            cases heq
            obtain ⟨hr, hw, hid⟩ := ih hrest
            exact ⟨by rw [hr, List.append_assoc], hw, hid⟩
      | wouldBlock => cases h; simp
      | failed => cases h

/-- The socket takes the front of the write buffer. -/
theorem sendAll_spec (rs : List Send) (c : Connection) :
    (c.sendAll rs).1 ++ (c.sendAll rs).2.1.wbuf = c.wbuf ∧
      (c.sendAll rs).2.1.rbuf = c.rbuf ∧ (c.sendAll rs).2.1.id = c.id := by
  induction rs generalizing c with
  | nil => exact ⟨rfl, rfl, rfl⟩
  | cons r rs ih =>
      by_cases hempty : c.wbuf = []
      · simp [sendAll, hempty]
      · simp only [sendAll, if_neg hempty]
        cases r with
        | took more now =>
            obtain ⟨hw, hr, hid⟩ :=
              ih { c with wbuf := c.wbuf.drop (more + 1), lastActivity := now }
            refine ⟨?_, hr, hid⟩
            dsimp only
            rw [List.append_assoc, hw, List.take_append_drop]
        | wouldBlock => exact ⟨rfl, rfl, rfl⟩
        | failed => exact ⟨rfl, rfl, rfl⟩
        | brokenPipe => exact ⟨rfl, rfl, rfl⟩

end Connection

/-! ## Requests are answered -/

/-- Nothing to do but for one connection. -/
def pending (id : Nat) (as : List Ask) : Nat → List Ask := Function.update (fun _ => []) id as

theorem pending_nil (id : Nat) : pending id [] = fun _ => [] :=
  Function.update_eq_self id fun _ => []

theorem pending_of_ne {id id' : Nat} (h : id ≠ id') (as : List Ask) : pending id as id' = [] := by
  rw [pending, Function.update_of_ne (Ne.symm h)]

section

variable {cfg : Config} {ios : Nat → WriteIo cfg.cipher} {s : EpollServer} {fd : Nat}
  {c : Connection}

theorem EpollServer.ask_of_dead (h : s.alive = false) (fd : Nat) (a : Ask) :
    s.ask cfg ios fd a = s := by
  unfold EpollServer.ask
  cases s.conns.find fd with
  | none => rfl
  | some c => exact if_pos h

theorem EpollServer.ask_alive {a : Ask} (h : (s.ask cfg ios fd a).alive = true) :
    s.alive = true := by
  by_contra hdead
  have hdead : s.alive = false := by simpa using hdead
  rw [ask_of_dead hdead, hdead] at h
  cases h

theorem EpollServer.foldl_ask_alive (as : List Ask) :
    ∀ {s : EpollServer}, (as.foldl (EpollServer.ask cfg ios fd) s).alive = true →
      s.alive = true := by
  induction as with
  | nil => intro s h; exact h
  | cons a as ih => intro s h; exact ask_alive (ih h)

theorem EpollServer.ask_eq (hfind : s.conns.find fd = some c) (halive : s.alive = true)
    (a : Ask) :
    s.ask cfg ios fd a =
      let r := Engine.answer cfg ios (s.engine, s.handled) a
      { s with engine := r.2.1, handled := r.2.2, alive := r.1.isSome,
               conns := s.conns.insert fd { c with wbuf := c.wbuf ++ replyBytes r.1 },
               log := s.log ++ [.answered c.id a r.1] } := by
  simp [EpollServer.ask, hfind, halive]

@[simp] theorem EpollServer.closeConn_alive (s : EpollServer) (fd : Nat) :
    (s.closeConn fd).alive = s.alive := by
  unfold EpollServer.closeConn
  cases s.conns.find fd <;> rfl

@[simp] theorem EpollServer.update_alive (s : EpollServer) (fd : Nat) :
    (s.update fd).alive = s.alive := by
  unfold EpollServer.update
  cases s.conns.find fd with
  | none => rfl
  | some c => dsimp only; split <;> rfl

theorem EpollServer.writable_alive {sends : List Send}
    (h : (s.writable fd sends).alive = true) : s.alive = true := by
  unfold EpollServer.writable at h
  cases hfind : s.conns.find fd with
  | none => simpa [hfind] using h
  | some c =>
      simp only [hfind] at h
      split at h
      · exact h
      · next hlive => simpa using hlive

namespace Books

/-- **A request is answered** on the connection that made it. -/
theorem ask {a : Ask} {as : List Ask} (h : Books (pending c.id (a :: as)) s)
    (hfind : s.conns.find fd = some c) (hend : (s.ask cfg ios fd a).alive = true) :
    Books (pending c.id as) (s.ask cfg ios fd a) := by
  have halive := EpollServer.ask_alive hend
  rw [EpollServer.ask_eq hfind halive] at hend ⊢
  have hasks := h.asks c.id
  have hwbuf := h.wbuf hfind
  rw [pending, Function.update_self] at hasks
  generalize Engine.answer cfg ios (s.engine, s.handled) a = r at hend ⊢
  refine h.put hfind rfl rfl rfl rfl (fun id hne => foreign_answered hne a r.1) ?_ ?_ ?_ ?_ ?_
  · intro id hne
    rw [pending_of_ne hne, pending_of_ne hne]
  · rw [asksOf_append, asksOf_answered, pending, Function.update_self]
    simpa using hasks
  · simpa using h.rbuf hfind
  · rw [repliesTo_append, repliesTo_answered, ← hwbuf]
    simp
  · simpa using hend

theorem foldl_ask {id : Nat} (as : List Ask) :
    ∀ {s : EpollServer}, Books (pending id as) s →
      (∃ c, c.id = id ∧ s.conns.find fd = some c) →
      (as.foldl (EpollServer.ask cfg ios fd) s).alive = true →
      Books (fun _ => []) (as.foldl (EpollServer.ask cfg ios fd) s) := by
  induction as with
  | nil => intro s h _ _; rw [pending_nil] at h; exact h
  | cons a as ih =>
      rintro s h ⟨c, rfl, hfind⟩ hend
      have halive := EpollServer.foldl_ask_alive as hend
      refine ih (h.ask hfind halive) ?_ hend
      -- the connection stays where it is, under its number
      rw [EpollServer.ask_eq hfind (EpollServer.ask_alive halive)]
      simp

/-! ## Events -/

theorem readable (h : Books (fun _ => []) s) (fd : Nat) (recvs : List Recv)
    (hend : (s.readable cfg ios fd recvs).alive = true) :
    Books (fun _ => []) (s.readable cfg ios fd recvs) := by
  unfold EpollServer.readable at hend ⊢
  cases hfind : s.conns.find fd with
  | none => exact h
  | some c =>
      simp only [hfind] at hend ⊢
      cases hrecv : c.recvAll recvs with
      | none => exact h.closeConn fd
      | some r =>
          obtain ⟨batch, c'⟩ := r
          simp only [hrecv] at hend ⊢
          obtain ⟨hrbuf, hwbuf, hid⟩ := Connection.recvAll_some hrecv
          have hasked := asked_append_one (batchesOf c.id s.log) batch
          rw [← h.rbuf hfind, ← hrbuf] at hasked
          have hbatches : batchesOf c.id (s.log ++ [.parsed c'.id batch])
              = batchesOf c.id s.log ++ [batch] := by simp [hid]
          have hbooks : Books (pending c'.id (asksIn (tryParseFrames c'.rbuf)))
              { s with conns := s.conns.insert fd
                         { c' with rbuf := (tryParseFrames c'.rbuf).2.2 },
                       log := s.log ++ [.parsed c'.id batch] } := by
            refine h.put hfind rfl hid rfl rfl (fun id hne => foreign_parsed (hid ▸ hne) batch)
              (fun id hne => pending_of_ne (hid ▸ hne) _) ?_ ?_ ?_ (by simp)
            · rw [hbatches, hasked, pending, hid, Function.update_self]
              simpa [asksOf] using h.asks c.id
            · rw [hbatches, hasked]
            · rw [hwbuf]
              simpa [repliesTo] using h.wbuf hfind
          exact foldl_ask _ hbooks (by simp) hend

theorem writable (h : Books (fun _ => []) s) (fd : Nat) (sends : List Send) :
    Books (fun _ => []) (s.writable fd sends) := by
  unfold EpollServer.writable
  cases hfind : s.conns.find fd with
  | none => exact h
  | some c =>
      by_cases hdead : s.alive = false
      · simpa only [if_pos hdead] using h
      · obtain ⟨hwbuf, hrbuf, hid⟩ := c.sendAll_spec sends
        have hput : Books (fun _ => [])
            { s with conns := s.conns.insert fd (c.sendAll sends).2.1,
                     log := s.log ++ [.sent c.id (c.sendAll sends).1] } := by
          refine h.put hfind rfl hid rfl rfl (fun id hne => foreign_sent hne _)
            (fun _ _ => rfl) ?_ ?_ ?_ (by simp)
          · simpa [asksOf] using h.asks c.id
          · simpa [hrbuf] using h.rbuf hfind
          · simpa [repliesTo, hwbuf] using h.wbuf hfind
        simp only [if_neg hdead]
        cases (c.sendAll sends).2.2 with
        | done => exact hput
        | failed => exact hput.closeConn fd
        | killed => exact hput.drop (fun hc => hc) rfl (List.append_nil _).symm fun id =>
            ⟨rfl, rfl, rfl⟩

theorem update (h : Books (fun _ => []) s) (fd : Nat) : Books (fun _ => []) (s.update fd) := by
  unfold EpollServer.update
  cases s.conns.find fd with
  | none => exact h
  | some c =>
      by_cases hdead : s.alive = false
      · simpa only [if_pos hdead] using h
      · simp only [if_neg hdead]
        exact h.drop (fun hc => hc) rfl (List.append_nil _).symm fun id => ⟨rfl, rfl, rfl⟩

theorem ready (h : Books (fun _ => []) s) (fd : Nat) (flags : Flags) (recvs : List Recv)
    (sends : List Send) (hend : (s.ready cfg ios fd flags recvs sends).alive = true) :
    Books (fun _ => []) (s.ready cfg ios fd flags recvs sends) := by
  unfold EpollServer.ready at hend ⊢
  split at hend
  · next hgone => rw [if_pos hgone]; exact h.closeConn fd
  · next hgone =>
    rw [if_neg hgone]
    dsimp only at hend ⊢
    apply Books.update
    have hread : Books (fun _ => [])
        (if flags.input then s.readable cfg ios fd recvs else s) := by
      cases hin : flags.input with
      | false => exact h
      | true =>
          rw [EpollServer.update_alive, hin] at hend
          apply h.readable fd recvs
          cases hout : flags.output with
          | false => simpa [hout] using hend
          | true => rw [hout] at hend; exact EpollServer.writable_alive hend
    cases flags.output with
    | false => exact hread
    | true => exact hread.writable fd sends

theorem step (h : Books (fun _ => []) s) (ev : LoopStep)
    (hend : (s.step cfg ios ev).alive = true) : Books (fun _ => []) (s.step cfg ios ev) := by
  unfold EpollServer.step at hend ⊢
  split at hend
  · next hdead => rw [hdead] at hend; cases hend
  · next hlive =>
    rw [if_neg hlive]
    cases ev with
    | accept fd now => exact h.accept fd now
    | ready fd flags recvs sends => exact h.ready fd flags recvs sends hend
    | sweep now => exact h.sweep now

end Books

/-! ## One order -/

/-- The engine has been asked what the log says, in that order. -/
def EpollServer.InOrder (cfg : Config) (ios : Nat → WriteIo cfg.cipher) (e : Engine)
    (s : EpollServer) : Prop :=
  Legal (Engine.answer cfg ios) (e, 0) (history s.log) (s.engine, s.handled)

namespace EpollServer.InOrder

variable {e : Engine}

/-- Only an answer concerns the engine. -/
theorem frame (h : s.InOrder cfg ios e) {s' : EpollServer} {more : List Happened}
    (hengine : s'.engine = s.engine) (hhandled : s'.handled = s.handled)
    (hlog : s'.log = s.log ++ more) (hmore : history more = []) : s'.InOrder cfg ios e := by
  rw [EpollServer.InOrder, hengine, hhandled, hlog, history_append, hmore, List.append_nil]
  exact h

theorem closeConn (h : s.InOrder cfg ios e) (fd : Nat) : (s.closeConn fd).InOrder cfg ios e := by
  unfold EpollServer.closeConn
  cases s.conns.find fd with
  | none => exact h
  | some c => exact h.frame rfl rfl rfl rfl

theorem sweep (h : s.InOrder cfg ios e) (now : Nat) : (s.sweep now).InOrder cfg ios e := by
  unfold EpollServer.sweep
  apply List.foldlRecOn _ _ h
  intro s h fd _
  exact h.closeConn fd

theorem ask (h : s.InOrder cfg ios e) (fd : Nat) (a : Ask) :
    (s.ask cfg ios fd a).InOrder cfg ios e := by
  unfold EpollServer.ask
  cases s.conns.find fd with
  | none => exact h
  | some c =>
      dsimp only
      split
      · exact h
      · rw [EpollServer.InOrder, history_append]
        exact h.snoc c.id a

theorem readable (h : s.InOrder cfg ios e) (fd : Nat) (recvs : List Recv) :
    (s.readable cfg ios fd recvs).InOrder cfg ios e := by
  unfold EpollServer.readable
  cases s.conns.find fd with
  | none => exact h
  | some c =>
      dsimp only
      cases c.recvAll recvs with
      | none => exact h.closeConn fd
      | some r =>
          apply List.foldlRecOn
          · exact h.frame rfl rfl rfl rfl
          · intro s h a _
            exact h.ask fd a

theorem writable (h : s.InOrder cfg ios e) (fd : Nat) (sends : List Send) :
    (s.writable fd sends).InOrder cfg ios e := by
  unfold EpollServer.writable
  cases s.conns.find fd with
  | none => exact h
  | some c =>
      dsimp only
      split
      · exact h
      · have hsent : EpollServer.InOrder cfg ios e
            { s with conns := s.conns.insert fd (c.sendAll sends).2.1,
                     log := s.log ++ [.sent c.id (c.sendAll sends).1] } :=
          h.frame rfl rfl rfl rfl
        cases (c.sendAll sends).2.2 with
        | done => exact hsent
        | failed => exact hsent.closeConn fd
        | killed => exact hsent

theorem update (h : s.InOrder cfg ios e) (fd : Nat) : (s.update fd).InOrder cfg ios e := by
  unfold EpollServer.update
  cases s.conns.find fd with
  | none => exact h
  | some c => dsimp only; split <;> exact h

theorem step (h : s.InOrder cfg ios e) (ev : LoopStep) :
    (s.step cfg ios ev).InOrder cfg ios e := by
  unfold EpollServer.step
  split
  · exact h
  · cases ev with
    | accept fd now => exact h.frame rfl rfl rfl rfl
    | sweep now => exact h.sweep now
    | ready fd flags recvs sends =>
        dsimp only [EpollServer.ready]
        split
        · exact h.closeConn fd
        · apply update
          have hread : (if flags.input then s.readable cfg ios fd recvs else s).InOrder
              cfg ios e := by
            split
            · exact h.readable fd recvs
            · exact h
          split
          · exact hread.writable fd sends
          · exact hread

end EpollServer.InOrder

end

/-! ## Every run -/

namespace EpollServer

variable (cfg : Config) (ios : Nat → WriteIo cfg.cipher)

theorem step_alive {s : EpollServer} {ev : LoopStep} (h : (s.step cfg ios ev).alive = true) :
    s.alive = true := by
  by_contra hdead
  have hdead : s.alive = false := by simpa using hdead
  unfold step at h
  rw [if_pos hdead, hdead] at h
  cases h

theorem inOrder_run (e : Engine) (evs : List LoopStep) :
    (EpollServer.run cfg ios evs { engine := e }).InOrder cfg ios e :=
  runAlong_keeps (I := InOrder cfg ios e) (fun ev _ h => h.step ev) evs rfl

theorem books_run {e : Engine} {evs : List LoopStep}
    (halive : (EpollServer.run cfg ios evs { engine := e }).alive = true) :
    Books (fun _ => []) (EpollServer.run cfg ios evs { engine := e }) := by
  have hstart : Books (fun _ => []) { engine := e } := by
    constructor
    case fresh => intro id _; exact ⟨rfl, rfl, rfl⟩
    case asks => intro id; rfl
    case sent => intro id; exact List.nil_prefix
    case answered => intro x hx; cases hx
    all_goals
      intro fd
      intros
      simp_all
  refine runAlong_keeps (I := fun s => s.alive = true → Books (fun _ => []) s) ?_ evs
    (fun _ => hstart) halive
  intro ev s h hend
  exact (h (step_alive cfg ios hend)).step ev hend

/-- **All clients are served in one order.** After any events whatever, as
long as the process runs: the answers given so far are those of the engine
when asked one request at a time, in the order of `history`; what a
connection asked in it is what its bytes ask for, batch by batch; what it was
sent is the front of the answers to its own requests; and if it is open, its
buffers hold exactly the rest of both. -/
theorem served_serially (e : Engine) (evs : List LoopStep)
    (halive : (EpollServer.run cfg ios evs { engine := e }).alive = true) :
    let s := EpollServer.run cfg ios evs { engine := e }
    Legal (Engine.answer cfg ios) (e, 0) (history s.log) (s.engine, s.handled) ∧
    (∀ id, asksOf id s.log = (asked (batchesOf id s.log)).2 ∧
      sentTo id s.log <+: repliesTo id s.log) ∧
    ∀ fd c, s.conns.find fd = some c →
      c.rbuf = (asked (batchesOf c.id s.log)).1 ∧
      sentTo c.id s.log ++ c.wbuf = repliesTo c.id s.log := by
  have hbooks := books_run cfg ios halive
  refine ⟨inOrder_run cfg ios e evs, fun id => ⟨?_, hbooks.sent id⟩, fun fd c hfind => ?_⟩
  · simpa using hbooks.asks id
  · exact ⟨hbooks.rbuf hfind, hbooks.wbuf hfind⟩

end EpollServer

/-- Two connections. The first one's `PING` arrives in two pieces, the second
one's in between; the first socket then takes four bytes of its answer. -/
def twoClients : List LoopStep :=
  [.accept 5 0, .accept 6 0,
   .ready 5 { input := true } [.data [0x01, 0, 0] 1] [],
   .ready 6 { input := true } [.data [0x01, 0, 0, 0, 0, 0] 2] [],
   .ready 5 { input := true, output := true } [.data [0, 0, 0, 0x05] 3] [.took 3 4]]

/-- The second connection is answered first; a byte of the first one is left
in its buffer. -/
theorem twoClients_served :
    let s := EpollServer.run (smallConfig 1000) (fun _ => .quiet (0 : Nat)) twoClients
      { engine := Small.opened 1000 }
    s.alive = true ∧ (history s.log).map Exchange.client = [1, 0] ∧
    (sentTo 0 s.log).length = 4 ∧ s.conns.find 5 = some ⟨0, [0x05],
      (encodeAck 0 (textBytes "PONG")).bytes.drop 4, 4⟩ ∧
    asksOf 0 s.log = (asked (batchesOf 0 s.log)).2 := by
  refine ⟨by decide +kernel, by decide +kernel, by decide +kernel, by decide +kernel, ?_⟩
  exact ((EpollServer.served_serially (smallConfig 1000) (fun _ => .quiet (0 : Nat))
    (Small.opened 1000) twoClients (by decide +kernel)).2.1 0).1

/-! ## A client alone -/

/-- What a connection with the engine to itself does with a request. -/
def Session.ask (cfg : Config) (ios : Nat → WriteIo cfg.cipher) (s : Session) : Ask → Session
  | .frame f => s.handle cfg ios f
  | .malformed err => s.reject err

theorem Session.feed_eq_asked (cfg : Config) (ios : Nat → WriteIo cfg.cipher) (s : Session)
    (batches : List Bytes) :
    ∀ (buf : Bytes) (out : List Ask),
      Framing.feed tryParseFrames (Session.handle cfg ios) Session.reject buf
          (out.foldl (Session.ask cfg ios) s) batches
        = ((Framing.feed tryParseFrames (fun out f => out ++ [.frame f])
              (fun out err => out ++ [.malformed err]) buf out batches).1,
           (Framing.feed tryParseFrames (fun out f => out ++ [.frame f])
              (fun out err => out ++ [.malformed err]) buf out batches).2.foldl
                (Session.ask cfg ios) s) := by
  induction batches with
  | nil => intro buf out; rfl
  | cons b batches ih =>
      intro buf out
      rw [Framing.feed, Framing.feed]
      rcases tryParseFrames (buf ++ b) with ⟨stop, fs, rest⟩
      cases stop with
      | none =>
          dsimp only
          rw [foldl_push_frames, ← ih, List.foldl_append, List.foldl_map]
          rfl
      | some err =>
          dsimp only
          rw [← ih, List.foldl_append]
          rfl

/-- A legal history with an answer to everything is a run of the session. -/
theorem Session.foldl_ask {cfg : Config} {ios : Nat → WriteIo cfg.cipher}
    (h : List (Exchange Nat Ask (Option Frame))) :
    ∀ {s : Session} {e' : Engine} {n' : Nat}, s.alive = true →
      Legal (Engine.answer cfg ios) (s.engine, s.handled) h (e', n') →
      (∀ x ∈ h, x.reply.isSome = true) →
      (h.map Exchange.request).foldl (Session.ask cfg ios) s
        = { s with wbuf := s.wbuf ++ h.flatMap fun x => replyBytes x.reply,
                   engine := e', handled := n' } := by
  induction h with
  | nil =>
      intro s e' n' _ hlegal _
      obtain ⟨rfl, rfl⟩ := Prod.mk.inj hlegal
      simp
  | cons x h ih =>
      intro s e' n' halive hlegal hsome
      obtain ⟨hreply, hrest⟩ := hlegal
      obtain ⟨resp, hresp⟩ := Option.isSome_iff_exists.mp (hsome x List.mem_cons_self)
      rw [hresp] at hreply
      have hone : Session.ask cfg ios s x.request
          = { s with wbuf := s.wbuf ++ resp.bytes,
                     engine := (Engine.answer cfg ios (s.engine, s.handled) x.request).2.1,
                     handled := (Engine.answer cfg ios (s.engine, s.handled) x.request).2.2 } := by
        cases hreq : x.request with
        | frame f =>
            rw [hreq] at hreply
            simp only [Engine.answer] at hreply ⊢
            rw [Session.ask, Session.handle, if_neg (by simp [halive])]
            generalize s.engine.handleFrame cfg (ios s.handled) f = r at hreply ⊢
            obtain ⟨reply, e₁⟩ := r
            cases hreply
            rfl
        | malformed err =>
            rw [hreq] at hreply
            cases hreply
            rw [Session.ask, Session.reject, if_neg (by simp [halive])]
            rfl
      rw [List.map_cons, List.foldl_cons, hone,
        ih (by exact halive) hrest fun y hy => hsome y (List.mem_cons_of_mem _ hy),
        List.flatMap_cons, hresp]
      simp [replyBytes]

/-- **A client alone is served as a session.** If every request so far came
from one connection, its answers and the engine are those of `Session` on the
batches it has sent; and if no length in its bytes is oversized, those of
`Session` on its bytes as a whole. -/
theorem EpollServer.served_alone (cfg : Config) (ios : Nat → WriteIo cfg.cipher) (e : Engine)
    (evs : List LoopStep)
    (halive : (EpollServer.run cfg ios evs { engine := e }).alive = true) (id : Nat)
    (halone : ∀ x ∈ history (EpollServer.run cfg ios evs { engine := e }).log, x.client = id) :
    let s := EpollServer.run cfg ios evs { engine := e }
    Session.outcome cfg ios e (batchesOf id s.log) = (repliesTo id s.log, s.engine) ∧
    ((tryParseFrames (batchesOf id s.log).flatten).1 = none →
      Session.outcome cfg ios e [(batchesOf id s.log).flatten]
        = (repliesTo id s.log, s.engine)) := by
  intro s
  have hbooks : Books (fun _ => []) s := books_run cfg ios halive
  have hall : exchangesOf id (history s.log) = history s.log := exchangesOf_self halone
  have hasks : (asked (batchesOf id s.log)).2 = (history s.log).map Exchange.request := by
    rw [← hbooks.asks id, List.append_nil, asksOf, hall]
  have hfold := Session.foldl_ask (s := { engine := e }) (history s.log) rfl
    (inOrder_run cfg ios e evs) hbooks.answered
  have houtcome : Session.outcome cfg ios e (batchesOf id s.log)
      = (repliesTo id s.log, s.engine) := by
    have hserve : Session.serve cfg ios { engine := e } (batchesOf id s.log)
        = ((asked (batchesOf id s.log)).1,
           (asked (batchesOf id s.log)).2.foldl (Session.ask cfg ios) { engine := e }) :=
      Session.feed_eq_asked cfg ios { engine := e } (batchesOf id s.log) [] []
    rw [Session.outcome, hserve, hasks, hfold, repliesTo, hall]
    rfl
  refine ⟨houtcome, fun hgood => ?_⟩
  obtain ⟨fs, rest, stop, hsplit⟩ := frames.exists_splits (batchesOf id s.log).flatten
  rw [tryParseFrames_fst hsplit] at hgood
  subst hgood
  rw [← houtcome, outcome_good cfg ios e hsplit (List.flatten_singleton ..),
    outcome_good cfg ios e hsplit rfl]

/-- The first connection of `twoClients`, without the second one. -/
theorem oneClient_served_alone :
    let evs : List LoopStep := [.accept 5 0,
      .ready 5 { input := true } [.data [0x01, 0, 0] 1] [],
      .ready 5 { input := true } [.data [0, 0, 0, 0x05] 3] []]
    let s := EpollServer.run (smallConfig 1000) (fun _ => .quiet (0 : Nat)) evs
      { engine := Small.opened 1000 }
    s.alive = true ∧ batchesOf 0 s.log = [[0x01, 0, 0], [0, 0, 0, 0x05]] ∧
    Session.outcome (smallConfig 1000) (fun _ => .quiet (0 : Nat)) (Small.opened 1000)
      (batchesOf 0 s.log) = (repliesTo 0 s.log, s.engine) := by
  refine ⟨by decide +kernel, by decide +kernel, ?_⟩
  exact (EpollServer.served_alone (smallConfig 1000) (fun _ => .quiet (0 : Nat))
    (Small.opened 1000) _ (by decide +kernel) 0 (by decide +kernel)).1

end VaultKV
