import VaultKV.Server.Serial

/-!
# Server — descriptors and interest

Every descriptor that `accept` returns is closed exactly once, also when the
same number is handed out again; `epoll` watches exactly the open
connections, and asks for `EPOLLOUT` exactly where a reply is not yet sent.
An event that stands in a batch behind others still finds the connection it
was reported for: within a batch the loop closes no connection but those that
have an event of their own, and a number that was open at the start of the
batch is not handed out before it is closed.
-/

namespace VaultKV

open Lib

attribute [simp] Happened.opens Happened.closes

@[simp] theorem opened_append (fd : Nat) (log more : List Happened) :
    opened fd (log ++ more) = opened fd log + opened fd more :=
  List.countP_append

@[simp] theorem closed_append (fd : Nat) (log more : List Happened) :
    closed fd (log ++ more) = closed fd log + closed fd more :=
  List.countP_append

/-- Something is left to send. -/
def Connection.unsent (c : Connection) : Bool := !c.wbuf.isEmpty

namespace EpollServer

/-- How often a descriptor is open: once or not at all. -/
def isOpen (fd : Nat) (s : EpollServer) : Nat := if (s.conns.find fd).isSome then 1 else 0

/-! ## What an event can do -/

/-- What an event on a descriptor leaves as it was. -/
structure Touches (fd : Nat) (s s' : EpollServer) : Prop where
  conns : ∀ {fd'}, fd' ≠ fd → s'.conns.find fd' = s.conns.find fd'
  interest : ∀ {fd'}, fd' ≠ fd → s'.interest.find fd' = s.interest.find fd'
  opened : ∀ fd', opened fd' s'.log = opened fd' s.log
  closed : ∀ fd', closed fd' s'.log + s'.isOpen fd' = closed fd' s.log + s.isOpen fd'
  gone : (s.conns.find fd = none → s.interest.find fd = none) →
    s'.conns.find fd = none → s'.interest.find fd = none

namespace Touches

variable {fd : Nat} {s s' s'' : EpollServer}

theorem refl (fd : Nat) (s : EpollServer) : Touches fd s s :=
  ⟨fun _ => rfl, fun _ => rfl, fun _ => rfl, fun _ => rfl, fun h => h⟩

theorem trans (h : Touches fd s s') (h' : Touches fd s' s'') : Touches fd s s'' where
  conns hne := (h'.conns hne).trans (h.conns hne)
  interest hne := (h'.interest hne).trans (h.interest hne)
  opened fd' := (h'.opened fd').trans (h.opened fd')
  closed fd' := (h'.closed fd').trans (h.closed fd')
  gone hgone := h'.gone (h.gone hgone)

theorem foldl {α : Type} {f : EpollServer → α → EpollServer}
    (hf : ∀ s a, Touches fd s (f s a)) (as : List α) :
    ∀ s, Touches fd s (as.foldl f s) := by
  induction as with
  | nil => intro s; exact refl fd s
  | cons a as ih => intro s; exact (hf s a).trans (ih (f s a))

/-- A connection goes on. -/
theorem put {c c' : Connection} {more : List Happened} (hfind : s.conns.find fd = some c)
    (hconns : s'.conns = s.conns.insert fd c') (hinterest : s'.interest = s.interest)
    (hlog : s'.log = s.log ++ more) (hopens : ∀ fd', VaultKV.opened fd' more = 0)
    (hcloses : ∀ fd', VaultKV.closed fd' more = 0) : Touches fd s s' where
  conns hne := by rw [hconns, SortedMap.find_insert, if_neg hne]
  interest _ := by rw [hinterest]
  opened fd' := by rw [hlog, opened_append, hopens, Nat.add_zero]
  closed fd' := by
    rw [hlog, closed_append, hcloses, Nat.add_zero, isOpen, isOpen, hconns,
      SortedMap.find_insert]
    by_cases heq : fd' = fd
    · rw [if_pos heq, heq, hfind]; rfl
    · rw [if_neg heq]
  gone _ hnone := by rw [hconns, SortedMap.find_insert, if_pos rfl] at hnone; cases hnone

theorem closeConn (fd : Nat) (s : EpollServer) : Touches fd s (s.closeConn fd) := by
  unfold EpollServer.closeConn
  cases hfind : s.conns.find fd with
  | none => exact refl fd s
  | some c =>
      constructor
      case conns => intro fd' hne; dsimp only; rw [SortedMap.find_erase, if_neg hne]
      case interest => intro fd' hne; dsimp only; rw [SortedMap.find_erase, if_neg hne]
      case opened => intro fd'; simp [VaultKV.opened]
      case closed =>
        intro fd'
        rw [closed_append, isOpen, isOpen, SortedMap.find_erase]
        by_cases heq : fd' = fd
        · simp [VaultKV.closed, heq, hfind]
        · have hne : fd ≠ fd' := Ne.symm heq
          simp [VaultKV.closed, heq, hne]
      case gone => intro _ _; dsimp only; rw [SortedMap.find_erase, if_pos rfl]

variable (cfg : Config) (ios : Nat → WriteIo cfg.cipher)

theorem ask (fd : Nat) (s : EpollServer) (a : Ask) : Touches fd s (s.ask cfg ios fd a) := by
  unfold EpollServer.ask
  cases hfind : s.conns.find fd with
  | none => exact refl fd s
  | some c =>
      dsimp only
      split
      · exact refl fd s
      · exact put hfind rfl rfl rfl (fun _ => rfl) fun _ => rfl

theorem readable (fd : Nat) (recvs : List Recv) (s : EpollServer) :
    Touches fd s (s.readable cfg ios fd recvs) := by
  unfold EpollServer.readable
  cases hfind : s.conns.find fd with
  | none => exact refl fd s
  | some c =>
      dsimp only
      cases c.recvAll recvs with
      | none => exact closeConn fd s
      | some r =>
          refine trans ?_ (foldl (ask cfg ios fd) _ _)
          exact put hfind rfl rfl rfl (fun _ => rfl) fun _ => rfl

theorem writable (fd : Nat) (sends : List Send) (s : EpollServer) :
    Touches fd s (s.writable fd sends) := by
  unfold EpollServer.writable
  cases hfind : s.conns.find fd with
  | none => exact refl fd s
  | some c =>
      dsimp only
      split
      · exact refl fd s
      · have hput : Touches fd s { s with conns := s.conns.insert fd (c.sendAll sends).2.1,
                                          log := s.log ++ [.sent c.id (c.sendAll sends).1] } :=
          put hfind rfl rfl rfl (fun _ => rfl) fun _ => rfl
        cases (c.sendAll sends).2.2 with
        | done => exact hput
        | failed => exact hput.trans (closeConn fd _)
        | killed => exact ⟨hput.conns, hput.interest, hput.opened, hput.closed, hput.gone⟩

theorem update (fd : Nat) (s : EpollServer) : Touches fd s (s.update fd) := by
  unfold EpollServer.update
  cases hfind : s.conns.find fd with
  | none => exact refl fd s
  | some c =>
      dsimp only
      split
      · exact refl fd s
      · refine ⟨fun _ => rfl, fun hne => ?_, fun _ => rfl, fun _ => rfl, fun _ hnone => ?_⟩
        · dsimp only; rw [SortedMap.find_insert, if_neg hne]
        · rw [hfind] at hnone; cases hnone

/-- Everything but the last part of an event. -/
theorem beforeUpdate (fd : Nat) (flags : Flags) (recvs : List Recv) (sends : List Send)
    (s : EpollServer) :
    Touches fd s
      (if flags.output then
        (if flags.input then s.readable cfg ios fd recvs else s).writable fd sends
       else if flags.input then s.readable cfg ios fd recvs else s) := by
  have hread : Touches fd s (if flags.input then s.readable cfg ios fd recvs else s) := by
    split
    · exact readable cfg ios fd recvs s
    · exact refl fd s
  split
  · exact hread.trans (writable fd sends _)
  · exact hread

theorem ready (fd : Nat) (flags : Flags) (recvs : List Recv) (sends : List Send)
    (s : EpollServer) : Touches fd s (s.ready cfg ios fd flags recvs sends) := by
  unfold EpollServer.ready
  split
  · exact closeConn fd s
  · exact (beforeUpdate cfg ios fd flags recvs sends s).trans (update fd _)

end Touches

/-! ## Interest -/

/-- `epoll` watches the open connections, for `EPOLLOUT` where something is
left to send. -/
def Armed (s : EpollServer) : Prop :=
  ∀ fd, s.interest.find fd = (s.conns.find fd).map Connection.unsent

namespace Armed

variable {s s' : EpollServer} {fd : Nat}

theorem gone (h : s.Armed) (fd : Nat) (hnone : s.conns.find fd = none) :
    s.interest.find fd = none := by
  rw [h fd, hnone]; rfl

/-- An event on a descriptor leaves it to its end to set that descriptor's
interest. -/
theorem touched (h : s.Armed) (ht : Touches fd s s')
    (hown : ∀ c, s'.conns.find fd = some c → s'.interest.find fd = some c.unsent) :
    s'.Armed := by
  intro fd'
  by_cases heq : fd' = fd
  · subst heq
    cases hfind : s'.conns.find fd' with
    | none => exact ht.gone (h.gone fd') hfind
    | some c => exact hown c hfind
  · rw [ht.conns heq, ht.interest heq]
    exact h fd'

theorem closeConn (h : s.Armed) (fd : Nat) : (s.closeConn fd).Armed := by
  apply h.touched (Touches.closeConn fd s)
  intro c hc
  unfold EpollServer.closeConn at hc ⊢
  cases hfind : s.conns.find fd with
  | none => rw [hfind] at hc; dsimp only at hc; rw [hfind] at hc; cases hc
  | some c' => rw [hfind] at hc; dsimp only at hc; rw [SortedMap.find_erase, if_pos rfl] at hc; cases hc

theorem sweep (h : s.Armed) (now : Nat) : (s.sweep now).Armed := by
  unfold EpollServer.sweep
  apply List.foldlRecOn _ _ h
  intro s h fd _
  exact h.closeConn fd

theorem accept (h : s.Armed) (fd now : Nat) : (s.accept fd now).Armed := by
  intro fd'
  unfold EpollServer.accept
  dsimp only
  rw [SortedMap.find_insert, SortedMap.find_insert]
  by_cases heq : fd' = fd
  · rw [if_pos heq, if_pos heq]; rfl
  · rw [if_neg heq, if_neg heq]
    exact h fd'

theorem ready {cfg : Config} {ios : Nat → WriteIo cfg.cipher} (h : s.Armed) (fd : Nat)
    (flags : Flags) (recvs : List Recv) (sends : List Send)
    (hend : (s.ready cfg ios fd flags recvs sends).alive = true) :
    (s.ready cfg ios fd flags recvs sends).Armed := by
  have htouch := Touches.ready cfg ios fd flags recvs sends s
  unfold EpollServer.ready at hend htouch ⊢
  split at htouch
  · next hgone => rw [if_pos hgone]; exact h.closeConn fd
  · next hgone =>
    rw [if_neg hgone] at hend ⊢
    dsimp only at hend htouch ⊢
    rw [update_alive] at hend
    generalize (if flags.output then
      (if flags.input then s.readable cfg ios fd recvs else s).writable fd sends
       else if flags.input then s.readable cfg ios fd recvs else s) = t at hend htouch ⊢
    apply h.touched htouch
    intro c hc
    -- the connection at the end of the event is the one whose buffer was looked at
    unfold EpollServer.update at hc ⊢
    cases hfind : t.conns.find fd with
    | none => rw [hfind] at hc; dsimp only at hc; rw [hfind] at hc; cases hc
    | some c' =>
        have hlive : ¬ t.alive = false := by simp [hend]
        simp only [hfind, if_neg hlive] at hc ⊢
        obtain rfl := Option.some.inj hc
        rw [SortedMap.find_insert, if_pos rfl]
        rfl

theorem step {cfg : Config} {ios : Nat → WriteIo cfg.cipher} (h : s.Armed) (ev : LoopStep)
    (hend : (s.step cfg ios ev).alive = true) : (s.step cfg ios ev).Armed := by
  unfold EpollServer.step at hend ⊢
  split at hend
  · next hdead => rw [hdead] at hend; cases hend
  · next hlive =>
    rw [if_neg hlive]
    cases ev with
    | accept fd now => exact h.accept fd now
    | ready fd flags recvs sends => exact h.ready fd flags recvs sends hend
    | sweep now => exact h.sweep now

end Armed

/-- **No reply is left behind, and no socket is polled in vain.** After any
events, as long as the process runs: `epoll` watches a descriptor exactly if a
connection is open on it, and asks for `EPOLLOUT` exactly if not all the
answers to that connection have been sent. -/
theorem interest_exact (cfg : Config) (ios : Nat → WriteIo cfg.cipher) (e : Engine)
    (evs : List LoopStep)
    (halive : (EpollServer.run cfg ios evs { engine := e }).alive = true) (fd : Nat) :
    let s := EpollServer.run cfg ios evs { engine := e }
    (s.interest.find fd).isSome = (s.conns.find fd).isSome ∧
    (s.interest.find fd = some true ↔ ∃ c, s.conns.find fd = some c ∧
      sentTo c.id s.log ≠ repliesTo c.id s.log) := by
  intro s
  have hbooks : Books (fun _ => []) s := books_run cfg ios halive
  have harmed : s.Armed := by
    refine runAlong_keeps (I := fun s : EpollServer => s.alive = true → s.Armed) ?_ evs
      (fun _ fd => rfl) halive
    intro ev s h hend
    exact (h (step_alive cfg ios hend)).step ev hend
  rw [harmed fd]
  cases hfind : s.conns.find fd with
  | none => simp
  | some c =>
      have hwbuf := hbooks.wbuf hfind
      simp only [Option.map_some, Option.isSome_some, Option.some.injEq, exists_eq_left',
        true_and, Connection.unsent, Bool.not_eq_true', List.isEmpty_eq_false_iff]
      rw [← hwbuf]
      simp

/-- In the run with two connections neither has been sent its whole answer. -/
theorem twoClients_interest :
    let s := EpollServer.run (smallConfig 1000) (fun _ => .quiet (0 : Nat)) twoClients
      { engine := Small.opened 1000 }
    s.alive = true ∧ s.interest.find 5 = some true ∧
      ∃ c, s.conns.find 5 = some c ∧ sentTo c.id s.log ≠ repliesTo c.id s.log := by
  refine ⟨by decide +kernel, by decide +kernel, ?_⟩
  exact (interest_exact (smallConfig 1000) (fun _ => .quiet (0 : Nat)) (Small.opened 1000)
    twoClients (by decide +kernel) 5).2.mp (by decide +kernel)

/-! ## Descriptors -/

/-- A descriptor has been closed as often as it was returned, but for the
connection that is open on it. -/
def Balanced (s : EpollServer) : Prop :=
  ∀ fd, opened fd s.log = closed fd s.log + s.isOpen fd

/-- `accept` returns a descriptor that is not open. -/
def Possible (ev : LoopStep) (s : EpollServer) : Prop :=
  match ev with
  | .accept fd _ => opened fd s.log = closed fd s.log
  | _ => True

instance (ev : LoopStep) (s : EpollServer) : Decidable (Possible ev s) := by
  cases ev
  · exact inferInstanceAs (Decidable (_ = _))
  · exact inferInstanceAs (Decidable True)
  · exact inferInstanceAs (Decidable True)

namespace Balanced

variable {s s' : EpollServer} {fd : Nat}

theorem touched (h : s.Balanced) (ht : Touches fd s s') : s'.Balanced := by
  intro fd'
  rw [ht.opened, ht.closed]
  exact h fd'

theorem sweep (h : s.Balanced) (now : Nat) : (s.sweep now).Balanced := by
  unfold EpollServer.sweep
  apply List.foldlRecOn _ _ h
  intro s h fd _
  exact h.touched (Touches.closeConn fd s)

theorem accept (h : s.Balanced) {fd now : Nat} (hpossible : Possible (.accept fd now) s) :
    (s.accept fd now).Balanced := by
  have hclosed : opened fd s.log = closed fd s.log := hpossible
  intro fd'
  have hfd := h fd'
  unfold EpollServer.accept isOpen at *
  rw [SortedMap.find_insert, opened_append, closed_append]
  by_cases heq : fd' = fd
  · subst heq
    simp [opened, closed] at hfd hclosed ⊢
    omega
  · have hne : fd ≠ fd' := Ne.symm heq
    simp [opened, closed, heq, hne] at hfd ⊢
    omega

theorem step {cfg : Config} {ios : Nat → WriteIo cfg.cipher} (h : s.Balanced) {ev : LoopStep}
    (hpossible : Possible ev s) : (s.step cfg ios ev).Balanced := by
  unfold EpollServer.step
  split
  · exact h
  · cases ev with
    | accept fd now => exact h.accept hpossible
    | ready fd flags recvs sends => exact h.touched (Touches.ready cfg ios fd flags recvs sends s)
    | sweep now => exact h.sweep now

theorem run {cfg : Config} {ios : Nat → WriteIo cfg.cipher} (evs : List LoopStep) :
    ∀ {s : EpollServer}, s.Balanced → Along (EpollServer.step cfg ios) Possible evs s →
      (EpollServer.run cfg ios evs s).Balanced := by
  induction evs with
  | nil => intro s h _; exact h
  | cons ev evs ih => intro s h hall; exact ih (h.step hall.1) hall.2

/-- Each connection that is left is closed once at the end. -/
theorem stop (h : s.Balanced) (fd : Nat) : opened fd s.stop.log = closed fd s.stop.log := by
  have hopens : opened fd (s.conns.entries.map fun p => .closed p.2.id p.1) = 0 := by
    simp [opened, Function.comp_def]
  have hcloses : closed fd (s.conns.entries.map fun p => .closed p.2.id p.1)
      = s.conns.keys.count fd := by
    simp [closed, SortedMap.keys, List.count, List.countP_map, Function.comp_def, beq_eq_decide]
  unfold EpollServer.stop
  rw [opened_append, closed_append, hopens, hcloses, s.conns.nodup_keys.count, h fd, isOpen]
  simp only [SortedMap.find_isSome_iff, Nat.add_zero]

end Balanced

/-- **Every descriptor is closed exactly once.** Along any events in which
`accept` returns descriptors that are not open: at each moment a descriptor
has been closed as often as it was returned, but for the connection that is
open on it; and when `Start` returns, none is left. -/
theorem descriptors_balanced (cfg : Config) (ios : Nat → WriteIo cfg.cipher) (e : Engine)
    (evs : List LoopStep) (hpossible : Along (step cfg ios) Possible evs { engine := e })
    (fd : Nat) :
    let s := EpollServer.run cfg ios evs { engine := e }
    opened fd s.log = closed fd s.log + s.isOpen fd ∧
      opened fd s.stop.log = closed fd s.stop.log := by
  have hbalanced : (EpollServer.run cfg ios evs { engine := e }).Balanced :=
    Balanced.run evs (fun _ => rfl) hpossible
  exact ⟨hbalanced fd, hbalanced.stop fd⟩

/-! ## Batches -/

/-- An event of a batch that is reported for another descriptor. -/
def Elsewhere (fd : Nat) : LoopStep → Prop
  | .accept _ _ => True
  | .ready fd' _ _ _ => fd' ≠ fd
  | .sweep _ => False

theorem step_elsewhere {cfg : Config} {ios : Nat → WriteIo cfg.cipher} {s : EpollServer}
    (h : s.Balanced) {ev : LoopStep} (hpossible : Possible ev s) {fd : Nat}
    (hev : Elsewhere fd ev) {c : Connection} (hfind : s.conns.find fd = some c) :
    (s.step cfg ios ev).conns.find fd = some c := by
  unfold step
  split
  · exact hfind
  · cases ev with
    | accept fd' now =>
        -- the descriptor is open, so it is not the one that `accept` returns
        have hne : fd ≠ fd' := by
          rintro rfl
          have hopen := h fd
          rw [isOpen, hfind] at hopen
          have hclosed : opened fd s.log = closed fd s.log := hpossible
          simp only [Option.isSome_some, if_true] at hopen
          omega
        dsimp only [accept]
        rw [SortedMap.find_insert, if_neg hne]
        exact hfind
    | ready fd' flags recvs sends =>
        rw [← hfind]
        exact (Touches.ready cfg ios fd' flags recvs sends s).conns (Ne.symm hev)
    | sweep now => cases hev

/-- **An event finds the connection it was reported for.** From any state
that possible events lead to: while the events of a batch that stand before it
are handled, connections accepted among them, a connection keeps its
descriptor, its buffers and its number. -/
theorem event_finds_connection (cfg : Config) (ios : Nat → WriteIo cfg.cipher) (e : Engine)
    (evs batch : List LoopStep)
    (hpossible : Along (step cfg ios) Possible (evs ++ batch) { engine := e }) {fd : Nat}
    (hbatch : ∀ ev ∈ batch, Elsewhere fd ev) {c : Connection}
    (hfind : (EpollServer.run cfg ios evs { engine := e }).conns.find fd = some c) :
    (EpollServer.run cfg ios (evs ++ batch) { engine := e }).conns.find fd = some c := by
  have hstart : Balanced { engine := e } := fun _ => rfl
  generalize ({ engine := e } : EpollServer) = s at hpossible hfind hstart ⊢
  induction evs generalizing s with
  | nil =>
      induction batch generalizing s with
      | nil => exact hfind
      | cons ev batch ih =>
          have hev := hbatch ev List.mem_cons_self
          exact ih (fun ev' hev' => hbatch ev' (List.mem_cons_of_mem _ hev')) _ hpossible.2
            (step_elsewhere hstart hpossible.1 hev hfind) (hstart.step hpossible.1)
  | cons ev evs ih => exact ih _ hpossible.2 hfind (hstart.step hpossible.1)

end EpollServer

/-- Descriptor 5 is used twice. In the last batch a new connection comes in
and the first one's successor is closed before the event of descriptor 6 is
handled. -/
def reused : List LoopStep :=
  [.accept 5 0, .ready 5 { hup := true } [] [], .accept 5 1, .accept 6 1, .sweep 2]

def reusedBatch : List LoopStep :=
  [.accept 7 3, .ready 5 { input := true } [.data [] 3] []]

theorem reused_balanced :
    Along (EpollServer.step (smallConfig 1000) (fun _ => .quiet (0 : Nat))) EpollServer.Possible
      (reused ++ reusedBatch) { engine := Small.opened 1000 } ∧
    (let s := EpollServer.run (smallConfig 1000) (fun _ => .quiet (0 : Nat))
      (reused ++ reusedBatch) { engine := Small.opened 1000 }
    opened 5 s.log = 2 ∧ opened 5 s.log = closed 5 s.log + s.isOpen 5 ∧
      opened 5 s.stop.log = closed 5 s.stop.log) := by
  have hpossible : Along (EpollServer.step (smallConfig 1000) (fun _ => .quiet (0 : Nat)))
      EpollServer.Possible (reused ++ reusedBatch) { engine := Small.opened 1000 } := by
    decide +kernel
  exact ⟨hpossible, by decide +kernel, EpollServer.descriptors_balanced (smallConfig 1000)
    (fun _ => .quiet (0 : Nat)) (Small.opened 1000) (reused ++ reusedBatch) hpossible 5⟩

theorem reused_finds :
    (∀ ev ∈ reusedBatch, EpollServer.Elsewhere 6 ev) ∧
    (EpollServer.run (smallConfig 1000) (fun _ => .quiet (0 : Nat)) (reused ++ reusedBatch)
      { engine := Small.opened 1000 }).conns.find 6 = some ⟨2, [], [], 1⟩ := by
  have hbatch : ∀ ev ∈ reusedBatch, EpollServer.Elsewhere 6 ev := by
    simp [reusedBatch, EpollServer.Elsewhere]
  exact ⟨hbatch, EpollServer.event_finds_connection (smallConfig 1000)
    (fun _ => .quiet (0 : Nat)) (Small.opened 1000) reused reusedBatch (by decide +kernel) hbatch
    (by decide +kernel)⟩

end VaultKV
