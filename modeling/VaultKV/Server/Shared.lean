import VaultKV.Server.Serial
import VaultKV.Replica.Agreement
import VaultKV.Engine.TableFiles

/-!
# Server — what the clients share

The connections of one server share one engine. Over any run of the event
loop, whoever asks: a `GET` tells the last acknowledged write of ANY client on
its key, and nothing that was refused; and the sequence numbers that the
replies tell never go back, a new write's number being above every number told
before it.
-/

namespace VaultKV

open Lib

/-- The write a request asks for. -/
def Ask.write? : Ask → Option ClientWrite
  | .malformed _ => none
  | .frame f =>
      match decodeCommand f with
      | .error _ => none
      | .ok cmd =>
          match cmd.type with
          | .set => some (.set cmd.key cmd.value)
          | .del => some (.delete cmd.key)
          | _ => none

/-- The key a request asks for. -/
def Ask.reads? : Ask → Option Bytes
  | .malformed _ => none
  | .frame f =>
      match decodeCommand f with
      | .error _ => none
      | .ok cmd => if cmd.type = .get then some cmd.key else none

section

variable {cfg : Config} {ios : Nat → WriteIo cfg.cipher} {s : Engine × Nat} {a : Ask}

/-- **A write frame is a write.** -/
theorem answer_write {w : ClientWrite} (h : a.write? = some w) :
    Engine.answer cfg ios s a =
      (Engine.writeReply (s.1.step cfg (w.toOp (ios s.2))).1,
       (s.1.step cfg (w.toOp (ios s.2))).2, s.2 + 1) := by
  cases a with
  | malformed err => cases h
  | frame f =>
      rw [Ask.write?] at h
      rw [Engine.answer, Engine.handleFrame]
      cases hcmd : decodeCommand f with
      | error msg => rw [hcmd] at h; cases h
      | ok cmd =>
          simp only [hcmd] at h ⊢
          cases htype : cmd.type <;> rw [htype] at h <;> cases h
          · rfl
          · rfl

/-- Whatever else is asked changes nothing. -/
theorem answer_unchanged (h : a.write? = none) : (Engine.answer cfg ios s a).2.1 = s.1 := by
  cases a with
  | malformed err => rfl
  | frame f =>
      rw [Ask.write?] at h
      rw [Engine.answer, Engine.handleFrame]
      cases hcmd : decodeCommand f with
      | error msg => rfl
      | ok cmd =>
          simp only [hcmd] at h ⊢
          cases htype : cmd.type <;> rw [htype] at h <;> cases h
          all_goals first | rfl | (dsimp only; split <;> rfl)

/-- A `GET` frame reads. -/
theorem answer_read {k : Bytes} (h : a.reads? = some k) :
    (Engine.answer cfg ios s a).1 =
      match s.1.get cfg k with
      | .ok v => some (encodeValue v)
      | .error err => Engine.errorReply err := by
  cases a with
  | malformed err => cases h
  | frame f =>
      rw [Ask.reads?] at h
      rw [Engine.answer, Engine.handleFrame]
      cases hcmd : decodeCommand f with
      | error msg => rw [hcmd] at h; cases h
      | ok cmd =>
          simp only [hcmd] at h ⊢
          split at h
          · next htype =>
            cases h
            rw [htype]
            cases s.1.get cfg cmd.key <;> rfl
          · cases h

end

/-! ## One map -/

/-- A write that was acknowledged. -/
def written (x : Exchange Nat Ask (Option Frame)) : List ClientWrite :=
  match x.request.write?, x.reply with
  | some w, some resp => if resp.type = .ack then [w] else []
  | _, _ => []

/-- A read tells the last of the writes on its key; one without a key is
refused. -/
def TellsLast (x : Exchange Nat Ask (Option Frame)) (ws : List ClientWrite) : Prop :=
  ∀ k, x.request.reads? = some k →
    if k = [] then x.reply = some (encodeError 400 (textBytes "key must not be empty"))
    else
      match latest k ws with
      | some v => x.reply = some (encodeValue v)
      | none => ∃ msg, x.reply = some (encodeError 404 (textBytes msg))

/-- What a request meets and starts is without failures, and a compaction in
it is safe. -/
def SafeAsk (cfg : Config) (ios : Nat → WriteIo cfg.cipher) (a : Ask) (s : Engine × Nat) : Prop :=
  ∀ w ∈ a.write?, (w.toOp (ios s.2)).Clean ∧ s.1.SafeStep cfg (w.toOp (ios s.2))

/-- An engine that tells its writes is open, so that it refuses to read an
empty key. -/
theorem Engine.Tells.get_nil {cfg : Config} {e : Engine} {ws : List ClientWrite}
    (h : e.Tells cfg ws) :
    e.get cfg [] = .error (Status.invalidArgument "key must not be empty") := by
  obtain ⟨⟨s, rs, hinv, -⟩, -⟩ := h
  rw [Engine.get, if_neg (by simp [hinv.isOpen]), if_pos rfl]

/-- Acknowledged is what the engine took. -/
theorem written_eq {client : Nat} {a : Ask} {w : ClientWrite} (h : a.write? = some w)
    (res : Res Nat) : written ⟨client, a, Engine.writeReply res⟩ = w.taken res := by
  simp only [written, h]
  cases res with
  | ok seq => rfl
  | error err => cases err <;> rfl

theorem written_of_none {client : Nat} {a : Ask} (h : a.write? = none) (reply : Option Frame) :
    written ⟨client, a, reply⟩ = [] := by
  simp only [written, h]

/-- **One request** keeps an engine that tells the acknowledged writes. -/
theorem answer_tells {cfg : Config} (hcfg : cfg.Reliable) {ios : Nat → WriteIo cfg.cipher}
    {s : Engine × Nat} {ws : List ClientWrite} (x : Exchange Nat Ask (Option Frame))
    (h : s.1.Tells cfg ws) (hsafe : SafeAsk cfg ios x.request s)
    (hreply : x.reply = (Engine.answer cfg ios s x.request).1) :
    TellsLast x ws ∧
      (Engine.answer cfg ios s x.request).2.1.Tells cfg (ws ++ written x) := by
  obtain ⟨client, a, reply⟩ := x
  dsimp only at hsafe hreply ⊢
  subst hreply
  constructor
  · intro k hread
    dsimp only at hread ⊢
    rw [answer_read hread]
    by_cases hk : k = []
    · rw [if_pos hk, hk, h.get_nil]
      rfl
    rw [if_neg hk]
    have hanswer := (h.answers_iff hk (latest k ws)).mpr rfl
    cases hlast : latest k ws with
    | none =>
        rw [hlast] at hanswer
        obtain ⟨msg, hmsg⟩ := hanswer
        exact ⟨msg, by rw [hmsg]; rfl⟩
    | some v =>
        rw [hlast] at hanswer
        have hok : s.1.get cfg k = .ok v := hanswer
        rw [hok]
  · cases hw : a.write? with
    | none =>
        rw [answer_unchanged hw, written_of_none hw, List.append_nil]
        exact h
    | some w =>
        obtain ⟨hclean, hstep⟩ := hsafe w hw
        rw [answer_write hw, written_eq hw]
        exact h.write hcfg hclean hstep

/-- **All clients share one map.** On an engine opened on an empty directory,
after any events of the event loop: if what the requests met was without I/O
or crypto failure and no compaction brought a deleted key back, every `GET` of
any client was answered with the value of the last write on its key that was
acknowledged to any client before it, or with 404 if there is none or it was a
`DEL`; a `GET` without a key was refused with 400. -/
theorem EpollServer.clients_share_map {cfg : Config} (hcfg : cfg.Reliable) {openIo : OpenIo}
    {e : Engine} (hopen : (Engine.fresh cfg).open cfg openIo = (.ok 0, e))
    (ios : Nat → WriteIo cfg.cipher) (evs : List LoopStep)
    (hsafe : Along (fun a s => (Engine.answer cfg ios s a).2) (SafeAsk cfg ios)
      ((history (EpollServer.run cfg ios evs { engine := e }).log).map Exchange.request) (e, 0))
    {before after : List (Exchange Nat Ask (Option Frame))}
    {x : Exchange Nat Ask (Option Frame)}
    (hsplit : history (EpollServer.run cfg ios evs { engine := e }).log
      = before ++ x :: after) :
    TellsLast x (before.flatMap written) := by
  have horder := EpollServer.inOrder_run cfg ios e evs
  obtain ⟨hright, -⟩ := Legal.simulates (fun s ws => Engine.Tells cfg ws s.1)
    (fun x ws => ws ++ written x) TellsLast
    (fun x h hgood hreply => answer_tells hcfg x h hgood hreply)
    _ horder (Engine.Tells.of_open hopen) hsafe
  rw [hsplit] at hright
  have hx := hright.split before
  rwa [runAlong_collect, List.nil_append] at hx

theorem safeAsk_quiet_iff (budget : Nat) (a : Ask) (s : Engine × Nat) :
    SafeAsk (smallConfig budget) (fun _ => .quiet (0 : Nat)) a s ↔
      ∀ w ∈ a.write?, s.1.SafeStep (smallConfig budget) (w.toOp (.quiet (0 : Nat))) := by
  constructor
  · intro h w hw
    exact (h w hw).2
  · intro h w hw
    refine ⟨?_, h w hw⟩
    cases w with
    | set key value => exact FlushIo.quiet_clean _
    | delete key => trivial

/-- One client sets a key and another one reads it; the second one deletes it
and the first one reads it. -/
def twoReaders : List LoopStep :=
  [.accept 5 0, .accept 6 0,
   .ready 5 { input := true } [.data (Frame.bytes ⟨.set, 0, setPayload [97] [1]⟩) 1] [],
   .ready 6 { input := true } [.data (Frame.bytes ⟨.get, 0, keyPayload [97]⟩) 1] [],
   .ready 6 { input := true } [.data (Frame.bytes ⟨.del, 0, keyPayload [97]⟩) 1] [],
   .ready 5 { input := true } [.data (Frame.bytes ⟨.get, 0, keyPayload [97]⟩) 1] []]

/-- The log of that run. -/
def twoReadersLog : List Happened :=
  (EpollServer.run (smallConfig 1000) (fun _ => .quiet (0 : Nat)) twoReaders
    { engine := Small.opened 1000 }).log

theorem twoReaders_share :
    let x : Exchange Nat Ask (Option Frame) :=
      ⟨0, .frame ⟨.get, 0, keyPayload [97]⟩, some (encodeError 404 (textBytes "deleted"))⟩
    history twoReadersLog = (history twoReadersLog).take 3 ++ [x] ∧
      ((history twoReadersLog).take 3).flatMap written = [.set [97] [1], .delete [97]] ∧
      TellsLast x (((history twoReadersLog).take 3).flatMap written) := by
  intro x
  have hlast : history twoReadersLog = (history twoReadersLog).take 3 ++ [x] := by
    decide +kernel
  refine ⟨hlast, by decide +kernel, ?_⟩
  refine EpollServer.clients_share_map (smallConfig_standalone 1000).toReliable
    (Small.opened_ok 1000 (by decide +kernel)) (fun _ => .quiet (0 : Nat)) twoReaders ?_ hlast
  refine (along_congr (I := fun _ => True) (fun _ _ _ => trivial)
    (fun a s _ => safeAsk_quiet_iff 1000 a s) _ trivial).mpr ?_
  decide +kernel

/-! ## Sequence numbers -/

theorem applySet_ok {cfg : Config} {io : FlushIo cfg.cipher} {key value : Bytes} {seq n : Nat}
    {e : Engine} (h : (e.applySet cfg io key value seq).1 = .ok n) : n = seq := by
  unfold Engine.applySet at h
  generalize e.memtable.set key value seq = r at h
  obtain ⟨res, m⟩ := r
  cases res with
  | error err => cases h
  | ok n =>
      dsimp only at h
      split at h
      · generalize Engine.flushMemTable cfg io { e with memtable := m } = r at h
        obtain ⟨res, e₁⟩ := r
        cases res <;> cases h
        rfl
      · cases h; rfl

theorem applyDelete_ok {key : Bytes} {seq n : Nat} {e : Engine}
    (h : (e.applyDelete key seq).1 = .ok n) : n = seq := by
  unfold Engine.applyDelete MemTable.delete at h
  split at h
  · cases h
  · cases h; rfl

/-- What became of a write, in sequence numbers: it took the next one, or
none; an acknowledged write tells the one it took. -/
structure SeqMoves (last : Nat) (out : Res Nat × Engine) : Prop where
  seq : out.2.wal.lastSeq = last ∨ out.2.wal.lastSeq = last + 1
  told : ∀ n, out.1 = .ok n → n = last + 1 ∧ out.2.wal.lastSeq = last + 1

theorem Engine.Writes.seqMoves {cfg : Config} {io : WriteIo cfg.cipher} {op : WalOp}
    {key value : Bytes} {last : Nat → Engine → Res Nat × Engine} {e : Engine}
    {out : Res Nat × Engine} (h : e.Writes cfg io op key value last out)
    (hroom : e.wal.lastSeq + 1 < 2 ^ 64) (hwal : ∀ seq e, (last seq e).2.wal = e.wal)
    (hok : ∀ seq e n, (last seq e).1 = .ok n → n = seq) : SeqMoves e.wal.lastSeq out := by
  have hrecorded : ∀ {seq w}, e.Recorded cfg io op key value seq w →
      seq = e.wal.lastSeq + 1 ∧ w.lastSeq = e.wal.lastSeq + 1 := by
    intro seq w hrec
    obtain ⟨-, -, -, hseq, encoded, -, -, rfl⟩ := append_eq_of_ok hrec.append
    rw [addU64, Nat.mod_eq_of_lt hroom] at hseq
    exact ⟨hseq, hseq⟩
  cases h with
  | refused err _ hout =>
      subst hout
      exact ⟨.inl rfl, fun n hn => by cases hn⟩
  | unreplicated seq w err hrec _ hout =>
      subst hout
      exact ⟨.inr (hrecorded hrec).2, fun n hn => by cases hn⟩
  | applied seq w n hrec _ hout =>
      subst hout
      have hlast : (last seq { e with wal := w }).2.wal.lastSeq = e.wal.lastSeq + 1 := by
        rw [hwal]
        exact (hrecorded hrec).2
      refine ⟨.inr hlast, fun m hm => ⟨?_, hlast⟩⟩
      rw [hok seq _ m hm, (hrecorded hrec).1]

theorem step_seqMoves (cfg : Config) (io : WriteIo cfg.cipher) (w : ClientWrite) {e : Engine}
    (hroom : e.wal.lastSeq + 1 < 2 ^ 64) :
    SeqMoves e.wal.lastSeq (e.step cfg (w.toOp io)) := by
  cases w with
  | set key value =>
      exact (e.set_writes cfg io key value).seqMoves hroom
        (fun seq e => applySet_wal cfg io.flush key value seq e)
        fun seq e n h => applySet_ok h
  | delete key =>
      exact (e.delete_writes cfg io key).seqMoves hroom (fun seq e => rfl)
        fun seq e n h => applyDelete_ok h

theorem encodeAck_seq {a b : Nat} {msg msg' : Bytes} (ha : a < 2 ^ 64) (hb : b < 2 ^ 64)
    (h : encodeAck a msg = encodeAck b msg') : a = b := by
  have hpayload := congrArg (fun f => readLe 8 f.payload) h
  simp only [encodeAck] at hpayload
  rwa [readLe_appendLe (show a < 256 ^ 8 by omega),
    readLe_appendLe (show b < 256 ^ 8 by omega)] at hpayload

theorem errorReply_ne_ack (err : Err) (n : Nat) (msg : Bytes) :
    Engine.errorReply err ≠ some (encodeAck n msg) := by
  cases err <;> intro h <;> cases h

/-- An acknowledgement of anything but a write is a `PONG`, with the number of
the last record. -/
theorem answer_ack_of_unwritten {cfg : Config} {ios : Nat → WriteIo cfg.cipher} {s : Engine × Nat}
    {a : Ask} (hw : a.write? = none) {n : Nat} {msg : Bytes}
    (h : (Engine.answer cfg ios s a).1 = some (encodeAck n msg)) :
    encodeAck n msg = encodeAck s.1.wal.lastSeq (textBytes "PONG") := by
  cases a with
  | malformed err => cases h
  | frame f =>
      rw [Ask.write?] at hw
      rw [Engine.answer, Engine.handleFrame] at h
      cases hcmd : decodeCommand f with
      | error text => rw [hcmd] at h; cases h
      | ok cmd =>
          simp only [hcmd] at h hw
          cases htype : cmd.type <;> rw [htype] at h hw <;> dsimp only at h
          case ping => exact (Option.some.inj h).symm
          case set => cases hw
          case del => cases hw
          case get =>
            cases hget : s.1.get cfg cmd.key <;> rw [hget] at h
            · exact absurd h (errorReply_ne_ack _ n msg)
            · cases h
          case scan =>
            cases hscan : s.1.scanPrefix cfg cmd.start cmd.limit <;> rw [hscan] at h
            · exact absurd h (errorReply_ne_ack _ n msg)
            · cases h
          all_goals cases h

/-- **One request** moves the number by at most one, and tells it. -/
theorem answer_seq (cfg : Config) (ios : Nat → WriteIo cfg.cipher) {s : Engine × Nat} (a : Ask)
    (hroom : s.1.wal.lastSeq + 1 < 2 ^ 64) :
    s.1.wal.lastSeq ≤ (Engine.answer cfg ios s a).2.1.wal.lastSeq ∧
    (Engine.answer cfg ios s a).2.1.wal.lastSeq ≤ s.1.wal.lastSeq + 1 ∧
    ∀ n msg, n < 2 ^ 64 → (Engine.answer cfg ios s a).1 = some (encodeAck n msg) →
      n = (Engine.answer cfg ios s a).2.1.wal.lastSeq ∧
      (a.write?.isSome = true → s.1.wal.lastSeq < n) := by
  cases hw : a.write? with
  | none =>
      rw [answer_unchanged hw]
      refine ⟨Nat.le_refl _, Nat.le_succ _, fun n msg hn hack => ⟨?_, fun h => by cases h⟩⟩
      exact encodeAck_seq hn (by omega) (answer_ack_of_unwritten hw hack)
  | some w =>
      rw [answer_write hw]
      have hnum := step_seqMoves cfg (ios s.2) w hroom
      generalize s.1.step cfg (w.toOp (ios s.2)) = out at hnum ⊢
      dsimp only
      refine ⟨?_, ?_, fun n msg hn hack => ?_⟩
      · rcases hnum.seq with h | h <;> omega
      · rcases hnum.seq with h | h <;> omega
      · obtain ⟨res, e⟩ := out
        cases res with
        | error err => exact absurd hack (errorReply_ne_ack err n msg)
        | ok m =>
            obtain ⟨hm, hlast⟩ := hnum.told m rfl
            have hmn := encodeAck_seq (by omega) hn (Option.some.inj hack)
            dsimp only at hlast ⊢
            exact ⟨by omega, fun _ => by omega⟩

/-- The replies tell no number below the log's last one, and a write's reply a
number above it. -/
theorem legal_seq_le {cfg : Config} {ios : Nat → WriteIo cfg.cipher}
    (h : List (Exchange Nat Ask (Option Frame))) :
    ∀ {s s' : Engine × Nat}, Legal (Engine.answer cfg ios) s h s' →
      s.1.wal.lastSeq + h.length < 2 ^ 64 →
      ∀ y ∈ h, ∀ n msg, n < 2 ^ 64 → y.reply = some (encodeAck n msg) →
        s.1.wal.lastSeq ≤ n ∧ (y.request.write?.isSome = true → s.1.wal.lastSeq < n) := by
  induction h with
  | nil => intro s s' _ _ y hy; cases hy
  | cons x h ih =>
      intro s s' hlegal hroom y hy n msg hn hack
      rw [List.length_cons] at hroom
      obtain ⟨hle, hsucc, htold⟩ := answer_seq cfg ios x.request
        (show s.1.wal.lastSeq + 1 < 2 ^ 64 by omega)
      rcases List.mem_cons.mp hy with rfl | hy
      · rw [hlegal.1] at hack
        obtain ⟨hn, hwrite⟩ := htold n msg hn hack
        exact ⟨by omega, hwrite⟩
      · obtain ⟨hrest, hwrite⟩ := ih hlegal.2 (by omega) y hy n msg hn hack
        exact ⟨by omega, fun hw => by have := hwrite hw; omega⟩

/-- The second of two replies tells no smaller number, and a larger one if it
acknowledges a write. -/
def SeqsGrow (x y : Exchange Nat Ask (Option Frame)) : Prop :=
  ∀ m n msg msg', m < 2 ^ 64 → n < 2 ^ 64 → x.reply = some (encodeAck m msg) →
    y.reply = some (encodeAck n msg') →
    m ≤ n ∧ (y.request.write?.isSome = true → m < n)

theorem legal_seqs_grow {cfg : Config} {ios : Nat → WriteIo cfg.cipher}
    (h : List (Exchange Nat Ask (Option Frame))) :
    ∀ {s s' : Engine × Nat}, Legal (Engine.answer cfg ios) s h s' →
      s.1.wal.lastSeq + h.length < 2 ^ 64 → h.Pairwise SeqsGrow := by
  induction h with
  | nil => intro s s' _ _; exact List.Pairwise.nil
  | cons x h ih =>
      intro s s' hlegal hroom
      rw [List.length_cons] at hroom
      obtain ⟨-, hsucc, htold⟩ := answer_seq cfg ios x.request
        (show s.1.wal.lastSeq + 1 < 2 ^ 64 by omega)
      have hroom' : (Engine.answer cfg ios s x.request).2.1.wal.lastSeq + h.length < 2 ^ 64 := by
        omega
      refine List.Pairwise.cons ?_ (ih hlegal.2 hroom')
      intro y hy m n msg msg' hm hn hx hack
      rw [hlegal.1] at hx
      rw [(htold m msg hm hx).1]
      exact legal_seq_le h hlegal.2 hroom' y hy n msg' hn hack

/-- **Sequence numbers never go back.** Whatever engine the server starts
with, whatever fails in its surroundings and whichever clients ask: of any two
acknowledgements, the later one tells a sequence number at least as large, and
a larger one if it acknowledges a write. -/
theorem EpollServer.seqs_never_go_back (cfg : Config) (ios : Nat → WriteIo cfg.cipher) (e : Engine)
    (evs : List LoopStep)
    (hroom : e.wal.lastSeq
      + (history (EpollServer.run cfg ios evs { engine := e }).log).length < 2 ^ 64) :
    (history (EpollServer.run cfg ios evs { engine := e }).log).Pairwise SeqsGrow :=
  legal_seqs_grow _ (EpollServer.inOrder_run cfg ios e evs) hroom

/-- The two writes of that run are acknowledged with the numbers 1 and 2. -/
theorem twoReaders_seqs :
    (history twoReadersLog).filterMap (fun x => if x.request.write?.isSome then x.reply else none)
      = [encodeAck 1 (textBytes "OK"), encodeAck 2 (textBytes "OK")] ∧
    (history twoReadersLog).Pairwise SeqsGrow :=
  ⟨by decide +kernel, EpollServer.seqs_never_go_back (smallConfig 1000)
    (fun _ => .quiet (0 : Nat)) (Small.opened 1000) twoReaders (by decide +kernel)⟩

end VaultKV
