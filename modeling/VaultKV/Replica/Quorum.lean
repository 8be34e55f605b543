import VaultKV.Engine.TableFiles
import VaultKV.Replica.Model

/-!
# Replica — what an acknowledged write rests on

A record that a node has appended is in its log segment, and stays there
until the node restarts. The invariant ties every reply and every counted
ACK to such a record in the log of the peer that sent it. A frame, its reply
and the waiting call have the same call number, and call numbers are not
used twice, so an ACK can only be counted for the write it answers.
-/

namespace VaultKV

open Lib

/-! ## Writes in a node's log -/

theorem applyWrite_wal (cfg : Config) (io : FlushIo cfg.cipher) (w : ClientWrite) (seq : Nat)
    (e : Engine) : (e.applyWrite cfg io w seq).2.wal = e.wal := by
  cases w with
  | set key value => exact applySet_wal cfg io key value seq e
  | delete key => rfl

/-- The log of an engine after a write is the one after the append. -/
theorem step_write_wal (cfg : Config) (io : WriteIo cfg.cipher) (w : ClientWrite) (e : Engine) :
    (e.step cfg (w.toOp io)).2.wal = (e.logWrite cfg io w.op w.key w.value).2.wal := by
  rw [Engine.step_write]
  rcases e.logWrite cfg io w.op w.key w.value with ⟨res, e₁⟩
  cases res with
  | error err => rfl
  | ok seq =>
      dsimp only
      cases Engine.replicate cfg io.calls with
      | error err => rfl
      | ok n => exact applyWrite_wal cfg io.flush w seq e₁

/-- A frame, whatever it asks for, leaves every record in the log. -/
theorem handleFrame_keeps {cfg : Config} {e : Engine} {rec : WalRecord}
    (h : e.wal.HasRecord cfg.cipher rec) (io : WriteIo cfg.cipher) (f : Frame) :
    (e.handleFrame cfg io f).2.wal.HasRecord cfg.cipher rec := by
  have hwrite : ∀ w : ClientWrite,
      (e.step cfg (w.toOp io)).2.wal.HasRecord cfg.cipher rec := by
    intro w
    rw [step_write_wal]
    exact logWrite_keeps h io w.op w.key w.value
  unfold Engine.handleFrame
  cases decodeCommand f with
  | error msg => exact h
  | ok cmd =>
      dsimp only
      cases cmd.type with
      | set => exact hwrite (.set cmd.key cmd.value)
      | del => exact hwrite (.delete cmd.key)
      | get => dsimp only; split <;> exact h
      | scan => dsimp only; split <;> exact h
      | _ => exact h

/-- **A record of the write is in the node's log.** -/
def Net.HasWrite (sys : System) (net : Net) (m : Nat) (w : ClientWrite) : Prop :=
  ∃ rec : WalRecord, (rec.op = w.op ∧ rec.key = w.key ∧ rec.value = w.value) ∧
    (net.nodes m).wal.HasRecord (sys.cfg m).cipher rec

namespace Net

variable {sys : System} {net : Net} {m : Nat} {w : ClientWrite}

/-- A write that was logged, when the node has kept the log since. -/
theorem hasWrite_of_logged {io : WriteIo (sys.cfg m).cipher} {e e' e₁ : Engine} {seq : Nat}
    (hlog : e.logWrite (sys.cfg m) io w.op w.key w.value = (.ok seq, e'))
    (hnode : net.nodes m = e₁) (hwal : e₁.wal = e'.wal) : net.HasWrite sys m w := by
  have hrec : (⟨w.op, seq, io.ts % 2 ^ 64, w.key, w.value⟩ : WalRecord) ∈
      e.appended (sys.cfg m) io w.op w.key w.value := by
    rw [Engine.appended, hlog]
    exact List.mem_singleton.mpr rfl
  have hhas := Engine.appended_hasRecord hrec
  rw [hlog, ← hwal, ← hnode] at hhas
  exact ⟨_, ⟨rfl, rfl, rfl⟩, hhas⟩

/-- A node that keeps its records does so in the cluster. -/
theorem HasWrite.put (h : net.HasWrite sys m w) (n : Nat) (e : Engine)
    (hkeep : ∀ rec, (net.nodes n).wal.HasRecord (sys.cfg n).cipher rec →
      e.wal.HasRecord (sys.cfg n).cipher rec) : (net.put n e).HasWrite sys m w := by
  obtain ⟨rec, hrec, hhas⟩ := h
  refine ⟨rec, hrec, ?_⟩
  show (Function.update net.nodes n e m).wal.HasRecord _ _
  by_cases hmn : m = n
  · subst hmn
    rw [Function.update_self]
    exact hkeep rec hhas
  · rw [Function.update_of_ne hmn]
    exact hhas

/-- **A write stays in the log** as long as the node does not restart. -/
theorem HasWrite.step (h : net.HasWrite sys m w) {ev : Event sys}
    (hev : ∀ io, ev ≠ .restart m io) : (net.step sys ev).1.HasWrite sys m w := by
  cases ev with
  | start n io w' =>
      have hkeep : ∀ rec, (net.nodes n).wal.HasRecord (sys.cfg n).cipher rec →
          ((net.nodes n).logWrite (sys.cfg n) io w'.op w'.key w'.value).2.wal.HasRecord
            (sys.cfg n).cipher rec :=
        fun rec hrec => logWrite_keeps hrec io w'.op w'.key w'.value
      simp only [Net.step, Net.start]
      generalize (net.nodes n).logWrite (sys.cfg n) io w'.op w'.key w'.value = r at hkeep ⊢
      obtain ⟨res, e⟩ := r
      cases res with
      | error err => exact h.put n e hkeep
      | ok seq =>
          dsimp only
          split
          · exact h.put n e hkeep
          · refine h.put n _ fun rec hrec => ?_
            rw [applyWrite_wal]
            exact hkeep rec hrec
  | deliver i io =>
      simp only [Net.step]
      cases net.frames[i]? with
      | none => exact h
      | some f => exact h.put f.peer _ fun rec hrec => handleFrame_keeps hrec (io f.peer) f.frame
  | lose i => exact h
  | answer i doneAt =>
      simp only [Net.step]
      cases net.replies[i]? with
      | none => exact h
      | some f =>
          dsimp only
          unfold Net.take
          split <;> exact h
  | loseAnswer i => exact h
  | finish i waits io =>
      simp only [Net.step]
      cases net.waiting[i]? with
      | none => exact h
      | some x =>
          dsimp only
          unfold Net.finish
          split
          · exact h
          · refine h.put x.node _ fun rec hrec => ?_
            rw [applyWrite_wal]
            exact hrec
  | flush n io =>
      refine h.put n _ fun rec hrec => ?_
      rw [flushMemTable_wal]
      exact hrec
  | compact n io =>
      refine h.put n _ fun rec hrec => ?_
      rw [(maybeCompact_parts (sys.cfg n) io (net.nodes n)).wal]
      exact hrec
  | restart n io =>
      obtain ⟨rec, hrec, hhas⟩ := h
      have hmn : m ≠ n := fun heq => by
        subst heq
        exact hev io rfl
      refine ⟨rec, hrec, ?_⟩
      show (Function.update net.nodes n _ m).wal.HasRecord _ _
      rw [Function.update_of_ne hmn]
      exact hhas

theorem HasWrite.run (later : List (Event sys)) :
    ∀ {net : Net}, net.HasWrite sys m w → (∀ io, Event.restart m io ∉ later) →
      (net.run sys later).HasWrite sys m w := by
  induction later with
  | nil => intro net h _; exact h
  | cons ev later ih =>
      intro net h hlater
      refine ih (h.step fun io heq => ?_) fun io hmem => hlater io (List.mem_cons_of_mem _ hmem)
      exact hlater io (heq ▸ List.mem_cons_self)

end Net

/-- The write was in the node's log at some point of the run. -/
def Wrote (sys : System) (net : Net) (evs : List (Event sys)) (m : Nat) (w : ClientWrite) :
    Prop :=
  ∃ before, before <+: evs ∧ (net.run sys before).HasWrite sys m w

theorem Wrote.snoc {sys : System} {net : Net} {evs : List (Event sys)} {m : Nat}
    {w : ClientWrite} (h : Wrote sys net evs m w) (ev : Event sys) :
    Wrote sys net (evs ++ [ev]) m w := by
  obtain ⟨before, hbefore, hhas⟩ := h
  exact ⟨before, hbefore.trans (List.prefix_append evs [ev]), hhas⟩

theorem Wrote.of_step {sys : System} {net : Net} {evs : List (Event sys)} {ev : Event sys}
    {m : Nat} {w : ClientWrite} (h : ((net.run sys evs).step sys ev).1.HasWrite sys m w) :
    Wrote sys net (evs ++ [ev]) m w := by
  refine ⟨evs ++ [ev], List.prefix_rfl, ?_⟩
  rw [Net.run_append]
  exact h

/-! ## The ground of every ACK -/

/-- Every ACK and every waiting call rests on writes that are logged. -/
structure Net.Grounded (net : Net) (wrote : Nat → ClientWrite → Prop) (past : List Note) :
    Prop where
  frames : ∀ f ∈ net.frames, f.call < net.calls ∧ f.write.frame? = some f.frame
  replies : ∀ f ∈ net.replies, f.call < net.calls ∧
    (f.frame.type = .ack → wrote f.peer f.write)
  waiting : ∀ x ∈ net.waiting, x.call < net.calls ∧ wrote x.node x.write ∧
    ∀ a ∈ x.acks, wrote a.1 x.write ∧ Note.acked x.call a.1 a.2 ∈ past
  coherent : ∀ x ∈ net.waiting, ∀ f, f ∈ net.frames ∨ f ∈ net.replies →
    f.call = x.call → f.write = x.write

/-- **The quorum behind a call that returned `Ok`**: the node and distinct
peers, each with the write in its log, each with an ACK that the call took
by the deadline. -/
def Backed (sys : System) (wrote : Nat → ClientWrite → Prop) (past : List Note) : Note → Prop
  | .returned call n w (.ok _) => ∃ voters : List Nat,
      voters.Sublist (sys.peers n) ∧
      ((sys.cfg n).opts.enableReplication = true →
        (sys.cfg n).opts.quorumSize ≤ voters.length + 1) ∧
      wrote n w ∧
      ∀ p ∈ voters, wrote p w ∧ ∃ t ≤ 300 * 1000000, Note.acked call p t ∈ past
  | _ => True

namespace Net.Grounded

variable {sys : System} {net : Net} {wrote wrote' : Nat → ClientWrite → Prop}
  {past : List Note}

/-- The past grows, and things in flight get fewer. -/
theorem mono (h : net.Grounded wrote past) (hold : ∀ m w, wrote m w → wrote' m w) {net' : Net}
    (more : List Note) (hcalls : net.calls ≤ net'.calls)
    (hframes : net'.frames ⊆ net.frames) (hreplies : net'.replies ⊆ net.replies)
    (hwaiting : net'.waiting ⊆ net.waiting) : net'.Grounded wrote' (past ++ more) := by
  refine ⟨fun f hf => ?_, fun f hf => ?_, fun x hx => ?_, fun x hx f hf => ?_⟩
  · obtain ⟨hlt, hframe⟩ := h.frames f (hframes hf)
    exact ⟨Nat.lt_of_lt_of_le hlt hcalls, hframe⟩
  · obtain ⟨hlt, hack⟩ := h.replies f (hreplies hf)
    exact ⟨Nat.lt_of_lt_of_le hlt hcalls, fun htype => hold _ _ (hack htype)⟩
  · obtain ⟨hlt, hex, hacks⟩ := h.waiting x (hwaiting hx)
    refine ⟨Nat.lt_of_lt_of_le hlt hcalls, hold _ _ hex, fun a ha => ?_⟩
    exact ⟨hold _ _ (hacks a ha).1, List.mem_append_left _ (hacks a ha).2⟩
  · exact h.coherent x (hwaiting hx) f (hf.imp (@hframes f) (@hreplies f))

/-- Nothing in flight changes: the step is one of a single node. -/
theorem later (h : net.Grounded wrote past) (hold : ∀ m w, wrote m w → wrote' m w) {net' : Net}
    (more : List Note) (hcalls : net.calls ≤ net'.calls) (hframes : net'.frames = net.frames)
    (hreplies : net'.replies = net.replies) (hwaiting : net'.waiting = net.waiting) :
    net'.Grounded wrote' (past ++ more) := by
  refine h.mono hold more hcalls ?_ ?_ ?_
  · rw [hframes]; exact List.Subset.refl _
  · rw [hreplies]; exact List.Subset.refl _
  · rw [hwaiting]; exact List.Subset.refl _

theorem start (h : net.Grounded wrote past) (hold : ∀ m w, wrote m w → wrote' m w) (n : Nat)
    (io : WriteIo (sys.cfg n).cipher) (w : ClientWrite)
    (hnew : (net.start sys n io w).1.HasWrite sys n w → wrote' n w) :
    (net.start sys n io w).1.Grounded wrote' (past ++ (net.start sys n io w).2) := by
  revert hnew
  unfold Net.start
  rcases hlog : (net.nodes n).logWrite (sys.cfg n) io w.op w.key w.value with ⟨res, e⟩
  cases res with
  | error err =>
      intro _
      exact h.later hold _ (Nat.le_succ _) rfl rfl rfl
  | ok seq =>
      dsimp only
      by_cases hrep : Net.replicates sys n = true
      · rw [if_pos hrep]
        intro hnew
        have hold : Net.Grounded { net with calls := net.calls + 1 } wrote' (past ++ []) :=
          h.later hold _ (Nat.le_succ _) rfl rfl rfl
        refine ⟨?_, hold.replies, ?_, ?_⟩
        · intro f hf
          rcases List.mem_append.mp hf with hf | hf
          · exact hold.frames f hf
          · obtain ⟨hcall, -, hframe⟩ := mem_framesOf hf
            exact ⟨by rw [hcall]; exact Nat.lt_succ_self _, hframe⟩
        · intro x hx
          rcases List.mem_append.mp hx with hx | hx
          · exact hold.waiting x hx
          · rw [List.mem_singleton.mp hx]
            refine ⟨Nat.lt_succ_self _, hnew ?_, fun a ha => absurd ha List.not_mem_nil⟩
            exact Net.hasWrite_of_logged hlog (Function.update_self ..) rfl
        · -- the new call has a number of its own
          intro x hx f hf hcall
          rcases List.mem_append.mp hx with hx | hx
          · have hxlt := (h.waiting x hx).1
            refine h.coherent x hx f (hf.imp_left fun hf => ?_) hcall
            rcases List.mem_append.mp hf with hf | hf
            · exact hf
            · have := (mem_framesOf hf).1
              omega
          · rw [List.mem_singleton.mp hx] at hcall ⊢
            have hcall : f.call = net.calls := hcall
            rcases hf with hf | hf
            · rcases List.mem_append.mp hf with hf | hf
              · have := (h.frames f hf).1
                omega
              · exact (mem_framesOf hf).2.1
            · have := (h.replies f hf).1
              omega
      · rw [if_neg hrep]
        intro _
        exact h.later hold _ (Nat.le_succ _) rfl rfl rfl

/-- A peer that replies with an ACK has the write in its log. -/
theorem hasWrite_of_ack {f : InFlight} {io : WriteIo (sys.cfg f.peer).cipher}
    (hframe : f.write.frame? = some f.frame) {reply : Frame}
    (hreply : ((net.nodes f.peer).handleFrame (sys.cfg f.peer) io f.frame).1 = some reply)
    (hack : reply.type = .ack) : (net.deliver sys f io).1.HasWrite sys f.peer f.write := by
  rw [handleFrame_write hframe] at hreply
  rcases hlog : (net.nodes f.peer).logWrite (sys.cfg f.peer) io f.write.op f.write.key
    f.write.value with ⟨res, e⟩
  cases res with
  | error err =>
      -- the reply is an error, or there is none
      rw [Engine.step_write, hlog] at hreply
      cases err with
      | status s =>
          obtain rfl := Option.some.inj hreply
          cases hack
      | _ => cases hreply
  | ok seq =>
      refine Net.hasWrite_of_logged hlog (Function.update_self ..) ?_
      rw [handleFrame_write hframe, step_write_wal, hlog]

theorem deliver (h : net.Grounded wrote past) (hold : ∀ m w, wrote m w → wrote' m w)
    {f : InFlight} {i : Nat} (hf : net.frames[i]? = some f)
    (io : WriteIo (sys.cfg f.peer).cipher)
    (hnew : (Net.deliver sys f io { net with frames := net.frames.eraseIdx i }).1.HasWrite sys
      f.peer f.write → wrote' f.peer f.write) :
    (Net.deliver sys f io { net with frames := net.frames.eraseIdx i }).1.Grounded wrote'
      (past ++ (Net.deliver sys f io { net with frames := net.frames.eraseIdx i }).2) := by
  have hmem : f ∈ net.frames := List.mem_of_getElem? hf
  obtain ⟨hlt, hframe⟩ := h.frames f hmem
  have hold : Net.Grounded { net with frames := net.frames.eraseIdx i } wrote'
      (past ++ (Net.deliver sys f io { net with frames := net.frames.eraseIdx i }).2) :=
    h.mono hold _ (Nat.le_refl _) List.eraseIdx_subset (List.Subset.refl _)
      (List.Subset.refl _)
  -- the reply stands for the frame it answers
  have hreplies : ∀ g ∈ (((net.nodes f.peer).handleFrame (sys.cfg f.peer) io f.frame).1.map
      fun reply => ({ f with frame := reply } : InFlight)).toList, g.call = f.call ∧
      g.peer = f.peer ∧ g.write = f.write ∧
      ((net.nodes f.peer).handleFrame (sys.cfg f.peer) io f.frame).1 = some g.frame := by
    intro g hg
    obtain ⟨reply, hreply, rfl⟩ := Option.map_eq_some_iff.mp (Option.mem_toList.mp hg)
    exact ⟨rfl, rfl, rfl, hreply⟩
  refine ⟨hold.frames, ?_, hold.waiting, ?_⟩
  · intro g hg
    rcases List.mem_append.mp hg with hg | hg
    · exact hold.replies g hg
    · obtain ⟨hcall, hpeer, hwrite, hreply⟩ := hreplies g hg
      refine ⟨by rw [hcall]; exact hlt, fun hack => ?_⟩
      rw [hpeer, hwrite]
      exact hnew (hasWrite_of_ack hframe hreply hack)
  · intro x hx g hg hcall
    refine hg.elim (fun hg => h.coherent x hx g (Or.inl (List.mem_of_mem_eraseIdx hg)) hcall)
      fun hg => ?_
    rcases List.mem_append.mp hg with hg | hg
    · exact h.coherent x hx g (Or.inr hg) hcall
    · obtain ⟨hgcall, -, hwrite, -⟩ := hreplies g hg
      rw [hwrite]
      exact h.coherent x hx f (Or.inl hmem) (hgcall.symm.trans hcall)

/-- A call that waits after a reply waited before, and has at most the ACK of
the reply more. -/
theorem mem_waiting_take {f : InFlight} {doneAt : Nat} {y : Waiting}
    (hy : y ∈ (net.take f doneAt).1.waiting) :
    ∃ x ∈ net.waiting, (y.call = x.call ∧ y.node = x.node ∧ y.write = x.write) ∧
      ∀ a ∈ y.acks, a ∈ x.acks ∨ (a = (f.peer, doneAt) ∧ x.call = f.call ∧ f.frame.type = .ack) := by
  unfold Net.take at hy
  by_cases hack : f.frame.type = .ack
  · rw [if_pos hack] at hy
    obtain ⟨x, hx, rfl⟩ := List.mem_map.mp hy
    refine ⟨x, hx, ?_⟩
    by_cases hcall : x.call = f.call
    · rw [if_pos hcall]
      refine ⟨⟨rfl, rfl, rfl⟩, fun a ha => ?_⟩
      rcases List.mem_cons.mp ha with rfl | ha
      · exact Or.inr ⟨rfl, hcall, hack⟩
      · exact Or.inl ha
    · rw [if_neg hcall]
      exact ⟨⟨rfl, rfl, rfl⟩, fun a ha => Or.inl ha⟩
  · rw [if_neg hack] at hy
    exact ⟨y, hy, ⟨rfl, rfl, rfl⟩, fun a ha => Or.inl ha⟩

theorem answer (h : net.Grounded wrote past) (hold : ∀ m w, wrote m w → wrote' m w)
    {f : InFlight} {i : Nat} (hf : net.replies[i]? = some f) (doneAt : Nat) :
    (Net.take f doneAt { net with replies := net.replies.eraseIdx i }).1.Grounded wrote'
      (past ++ (Net.take f doneAt { net with replies := net.replies.eraseIdx i }).2) := by
  have hmem : f ∈ net.replies := List.mem_of_getElem? hf
  have hless : Net.Grounded { net with replies := net.replies.eraseIdx i } wrote'
      (past ++ (Net.take f doneAt { net with replies := net.replies.eraseIdx i }).2) :=
    h.mono hold _ (Nat.le_refl _) (List.Subset.refl _) List.eraseIdx_subset
      (List.Subset.refl _)
  -- a reply changes nothing but the ACKs of the calls
  have hrest : ∀ net : Net, (net.take f doneAt).1.frames = net.frames ∧
      (net.take f doneAt).1.replies = net.replies ∧ (net.take f doneAt).1.calls = net.calls := by
    intro net
    unfold Net.take
    split <;> exact ⟨rfl, rfl, rfl⟩
  obtain ⟨hframes, hreplies, hcalls⟩ := hrest { net with replies := net.replies.eraseIdx i }
  refine ⟨?_, ?_, fun y hy => ?_, fun y hy g hg hcall => ?_⟩
  · rw [hframes, hcalls]
    exact hless.frames
  · rw [hreplies, hcalls]
    exact hless.replies
  · obtain ⟨x, hx, ⟨hxcall, hxnode, hxwrite⟩, hacks⟩ := mem_waiting_take hy
    obtain ⟨hlt, hown, hpast⟩ := hless.waiting x hx
    rw [hcalls, hxcall, hxnode, hxwrite]
    refine ⟨hlt, hown, fun a ha => ?_⟩
    rcases hacks a ha with ha | ⟨rfl, hfcall, hack⟩
    · exact hpast a ha
    · -- the reply answers the write this call waits for
      have hwrite := h.coherent x hx f (Or.inr hmem) hfcall.symm
      refine ⟨hwrite ▸ hold _ _ ((h.replies f hmem).2 hack), List.mem_append_right _ ?_⟩
      rw [Net.take, if_pos hack, hfcall]
      exact List.mem_singleton.mpr rfl
  · obtain ⟨x, hx, ⟨hxcall, -, hxwrite⟩, -⟩ := mem_waiting_take hy
    rw [hframes, hreplies] at hg
    rw [hxwrite]
    exact hless.coherent x hx g hg (hcall.trans hxcall)

/-- **Every step keeps the ground.** -/
theorem step (h : net.Grounded wrote past) (hold : ∀ m w, wrote m w → wrote' m w)
    (ev : Event sys) (hnew : ∀ m w, (net.step sys ev).1.HasWrite sys m w → wrote' m w) :
    (net.step sys ev).1.Grounded wrote' (past ++ (net.step sys ev).2) := by
  have hsame : ∀ more, net.Grounded wrote' (past ++ more) := fun more =>
    h.later hold more (Nat.le_refl _) rfl rfl rfl
  cases ev with
  | start n io w => exact h.start hold n io w (hnew n w)
  | deliver i io =>
      revert hnew
      simp only [Net.step]
      cases hf : net.frames[i]? with
      | none => exact fun _ => hsame []
      | some f => exact fun hnew => h.deliver hold hf (io f.peer) (hnew f.peer f.write)
  | lose i =>
      exact h.mono hold _ (Nat.le_refl _) List.eraseIdx_subset (List.Subset.refl _)
        (List.Subset.refl _)
  | answer i doneAt =>
      simp only [Net.step]
      cases hf : net.replies[i]? with
      | none => exact hsame []
      | some f => exact h.answer hold hf doneAt
  | loseAnswer i =>
      exact h.mono hold _ (Nat.le_refl _) (List.Subset.refl _) List.eraseIdx_subset
        (List.Subset.refl _)
  | finish i waits io =>
      simp only [Net.step]
      cases hx : net.waiting[i]? with
      | none => exact hsame []
      | some x =>
          dsimp only
          unfold Net.finish
          cases Engine.replicate (sys.cfg x.node) (Net.callsOf sys x waits) with
          | error err =>
              exact h.mono hold _ (Nat.le_refl _) (List.Subset.refl _) (List.Subset.refl _)
                List.eraseIdx_subset
          | ok n =>
              exact h.mono hold _ (Nat.le_refl _) (List.Subset.refl _) (List.Subset.refl _)
                List.eraseIdx_subset
  | flush n io => exact h.later hold _ (Nat.le_refl _) rfl rfl rfl
  | compact n io => exact h.later hold _ (Nat.le_refl _) rfl rfl rfl
  | restart n io =>
      exact h.mono hold _ (Nat.le_refl _) (List.Subset.refl _) (List.Subset.refl _)
        (List.filter_subset_self _)

end Net.Grounded

/-- **Every run keeps the ground.** -/
theorem grounded_run (sys : System) {net : Net} (hquiet : net.Quiet) (evs : List (Event sys)) :
    (net.run sys evs).Grounded (Wrote sys net evs) (net.notes sys evs) := by
  induction evs using List.reverseRecOn with
  | nil =>
      refine ⟨?_, ?_, ?_, ?_⟩
      · rw [Net.run, hquiet.frames]; exact fun _ hf => absurd hf List.not_mem_nil
      · rw [Net.run, hquiet.replies]; exact fun _ hf => absurd hf List.not_mem_nil
      · rw [Net.run, hquiet.waiting]; exact fun _ hx => absurd hx List.not_mem_nil
      · rw [Net.run, hquiet.waiting]; exact fun _ hx => absurd hx List.not_mem_nil
  | append_singleton evs ev ih =>
      have hnotes : net.notes sys (evs ++ [ev])
          = net.notes sys evs ++ ((net.run sys evs).step sys ev).2 := by
        rw [Net.notes_append, Net.notes, Net.notes, List.append_nil]
      rw [hnotes, Net.run_append]
      exact ih.step (fun m w h => h.snoc ev) ev fun m w h => Wrote.of_step h

/-! ## The voters -/

/-- The peers whose ACK the call took by the deadline. -/
def Waiting.voters (sys : System) (x : Waiting) : List Nat :=
  (sys.peers x.node).filter fun p =>
    (x.acks.lookup p).any fun doneAt => decide (doneAt ≤ 300 * 1000000)

theorem Waiting.mem_voters {sys : System} {x : Waiting} {p : Nat} (h : p ∈ x.voters sys) :
    ∃ t ≤ 300 * 1000000, (p, t) ∈ x.acks := by
  obtain ⟨-, hany⟩ := List.mem_filter.mp h
  cases hl : x.acks.lookup p with
  | none => rw [hl] at hany; cases hany
  | some t =>
      rw [hl] at hany
      obtain ⟨l₁, l₂, hsplit, -⟩ := List.lookup_eq_some_iff.mp hl
      refine ⟨t, of_decide_eq_true hany, ?_⟩
      rw [hsplit]
      exact List.mem_append_right _ List.mem_cons_self

/-- `ReplicateToQuorum` counts the voters. -/
theorem length_acked (sys : System) (x : Waiting) (waits : Nat → Nat × Nat) :
    (acked (300 * 1000000) (Net.callsOf sys x waits)).length = (x.voters sys).length := by
  rw [acked, Net.callsOf, List.filter_map, List.length_map, Waiting.voters]
  refine congrArg List.length (List.filter_congr fun p _ => ?_)
  show ((Net.peerCall x waits p).result && decide ((Net.peerCall x waits p).doneAt ≤ _)) = _
  unfold Net.peerCall
  cases x.acks.lookup p <;> rfl

/-- **A call that returns `Ok` has its quorum.** -/
theorem Net.Grounded.backed_finish {sys : System} {net : Net} {past : List Note}
    {wrote : Nat → ClientWrite → Prop} (h : net.Grounded wrote past) {x : Waiting}
    (hx : x ∈ net.waiting) {waits : Nat → Nat × Nat}
    {n : Nat} (hrep : Engine.replicate (sys.cfg x.node) (Net.callsOf sys x waits) = .ok n)
    (res : Res Nat) : Backed sys wrote past (.returned x.call x.node x.write res) := by
  cases res with
  | error err => trivial
  | ok seq =>
      obtain ⟨-, hex, hacks⟩ := h.waiting x hx
      refine ⟨x.voters sys, List.filter_sublist, fun hon => ?_, hex, fun p hp => ?_⟩
      · rw [Engine.replicate, hon, Bool.true_and] at hrep
        by_cases hone : 1 < (sys.cfg x.node).opts.quorumSize
        · rw [if_pos (decide_eq_true hone)] at hrep
          have hcount := replicateToQuorum_acked hrep
          rw [length_acked] at hcount
          omega
        · omega
      · obtain ⟨t, ht, hmem⟩ := Waiting.mem_voters hp
        obtain ⟨hexp, hack⟩ := hacks _ hmem
        exact ⟨hexp, t, ht, hack⟩

/-- **The results of a step are backed** by what stands before it and, where
the node does not wait, by the record of the step itself. -/
theorem Net.Grounded.backed_step {sys : System} {net : Net} {past : List Note}
    {wrote : Nat → ClientWrite → Prop} (h : net.Grounded wrote past) (ev : Event sys)
    (hnew : ∀ m w, (net.step sys ev).1.HasWrite sys m w → wrote m w) :
    ∀ note ∈ (net.step sys ev).2, Backed sys wrote past note := by
  have hnone : ∀ note ∈ ([] : List Note), Backed sys wrote past note :=
    fun _ hnote => absurd hnote List.not_mem_nil
  have hone : ∀ {x : Note}, Backed sys wrote past x →
      ∀ note ∈ [x], Backed sys wrote past note := by
    intro x hx note hnote
    rw [List.mem_singleton.mp hnote]
    exact hx
  revert hnew
  cases ev with
  | start n io w =>
      simp only [Net.step, Net.start]
      rcases hlog : (net.nodes n).logWrite (sys.cfg n) io w.op w.key w.value with ⟨res, e⟩
      cases res with
      | error err => exact fun _ => hone trivial
      | ok seq =>
          dsimp only
          by_cases hrep : Net.replicates sys n = true
          · rw [if_pos hrep]
            exact fun _ => hnone
          · rw [if_neg hrep]
            intro hnew
            refine hone ?_
            cases (e.applyWrite (sys.cfg n) io.flush w seq).1 with
            | error err => trivial
            | ok m =>
                refine ⟨[], List.nil_sublist _, fun hon => ?_, hnew n w ?_,
                  fun p hp => absurd hp List.not_mem_nil⟩
                · -- the node does not wait: one log is quorum enough
                  rw [Net.replicates, hon, Bool.true_and, decide_eq_true_eq] at hrep
                  exact Nat.le_of_not_lt hrep
                · exact Net.hasWrite_of_logged hlog (Function.update_self ..)
                    (applyWrite_wal ..)
  | deliver i io =>
      simp only [Net.step]
      cases net.frames[i]? with
      | none => exact fun _ => hnone
      | some f => exact fun _ => hone trivial
  | lose i => exact fun _ => hnone
  | answer i doneAt =>
      simp only [Net.step]
      cases net.replies[i]? with
      | none => exact fun _ => hnone
      | some f =>
          dsimp only
          unfold Net.take
          by_cases hack : f.frame.type = .ack
          · rw [if_pos hack]
            exact fun _ => hone trivial
          · rw [if_neg hack]
            exact fun _ => hnone
  | loseAnswer i => exact fun _ => hnone
  | finish i waits io =>
      simp only [Net.step]
      cases hx : net.waiting[i]? with
      | none => exact fun _ => hnone
      | some x =>
          dsimp only
          unfold Net.finish
          cases hrep : Engine.replicate (sys.cfg x.node) (Net.callsOf sys x waits) with
          | error err => exact fun _ => hone trivial
          | ok n => exact fun _ => hone (h.backed_finish (List.mem_of_getElem? hx) hrep _)
  | flush n io => exact fun _ => hnone
  | compact n io => exact fun _ => hnone
  | restart n io => exact fun _ => hnone

/-- **An acknowledgement means a quorum.** In any run of any system, from a
state in which nothing is under way, with any loss, delay and order of
frames and replies, restarts, flushes and compactions: for every `Set` or
`Delete` that returns `Ok` on a node whose peers are distinct and do not
include it, there are distinct nodes, the node among them and with
replication on at least `quorumSize` of them, that have appended a record
with the operation, key and value by then: its bytes stand in the node's
segment below the write offset, and stay there until the node restarts, if
it does. Each of the others has sent an ACK to this very call, and the call
has taken it by the deadline. -/
theorem acknowledged_by_quorum (sys : System) {net : Net} (hquiet : net.Quiet)
    {evs : List (Event sys)} {ev : Event sys} {call n seq : Nat} {w : ClientWrite}
    (hpeers : (sys.peers n).Nodup) (hself : n ∉ sys.peers n)
    (hreturned : Note.returned call n w (.ok seq) ∈ ((net.run sys evs).step sys ev).2) :
    ∃ voters : List Nat, (n :: voters).Nodup ∧
      ((sys.cfg n).opts.enableReplication = true →
        (sys.cfg n).opts.quorumSize ≤ (n :: voters).length) ∧
      (∀ m ∈ n :: voters, ∃ before, before <+: evs ++ [ev] ∧
        ∀ later, (∀ io, Event.restart m io ∉ later) →
          (net.run sys (before ++ later)).HasWrite sys m w) ∧
      ∀ p ∈ voters, p ∈ sys.peers n ∧
        ∃ t ≤ 300 * 1000000, Note.acked call p t ∈ net.notes sys evs := by
  have hground : (net.run sys evs).Grounded (Wrote sys net (evs ++ [ev]))
      (net.notes sys evs ++ []) :=
    (grounded_run sys hquiet evs).later (fun m w h => h.snoc ev) [] (Nat.le_refl _) rfl rfl rfl
  rw [List.append_nil] at hground
  obtain ⟨voters, hsub, hcount, hown, hvoters⟩ := hground.backed_step ev
    (fun m w h => Wrote.of_step h) _ hreturned
  refine ⟨voters, ?_, hcount, ?_, ?_⟩
  · exact List.nodup_cons.mpr ⟨fun hmem => hself (hsub.subset hmem), hpeers.sublist hsub⟩
  · intro m hm
    have hwrote : Wrote sys net (evs ++ [ev]) m w := by
      rcases List.mem_cons.mp hm with rfl | hm
      · exact hown
      · exact (hvoters m hm).1
    obtain ⟨before, hbefore, hhas⟩ := hwrote
    refine ⟨before, hbefore, fun later hlater => ?_⟩
    rw [Net.run_append]
    exact hhas.run later hlater
  · exact fun p hp => ⟨hsub.subset hp, (hvoters p hp).2⟩

/-- One peer gets the frame and answers, the other does not. -/
def oneAck : List (Event trio) := [Trio.set 1 97 1, Trio.deliver 0, .lose 0, .answer 0 5]

theorem oneAck_quorum :
    ∃ voters : List Nat, (1 :: voters).Nodup ∧ 2 ≤ (1 :: voters).length ∧
      ∀ m ∈ 1 :: voters, ∃ before, before <+: oneAck ++ [Trio.finish] ∧
        (Trio.opened.run trio before).HasWrite trio m (.set [97] [1]) := by
  have hreturned : Note.returned 0 1 (.set [97] [1]) (.ok 1) ∈
      ((Trio.opened.run trio oneAck).step trio Trio.finish).2 := by decide +kernel
  obtain ⟨voters, hnodup, hcount, hwrites, -⟩ := acknowledged_by_quorum trio
    (⟨rfl, rfl, rfl⟩ : Trio.opened.Quiet) (by decide) (by decide) hreturned
  refine ⟨voters, hnodup, hcount rfl, fun m hm => ?_⟩
  obtain ⟨before, hbefore, hlater⟩ := hwrites m hm
  have hhas := hlater [] fun _ => List.not_mem_nil
  rw [List.append_nil] at hhas
  exact ⟨before, hbefore, hhas⟩

end VaultKV
