import VaultKV.Gateway.Manager
import VaultKV.Lib.Trace

/-!
# Gateway — the coroutines on the event loop (`cluster.py`)

`ping`, `get`, `set`, `delete` and `scan` are tasks that run from one await
to the next; between two awaits nothing else runs. All of them end up in
`send_frame` of one node, whose awaits are the states of a `Task`. The
outcome of an await (a refused connection, a reply, a timeout) is part of
the event that resumes the task, so a run of the loop is a list of events
and every list is a possible run. A task that waits for the lock may take
it whenever it is free; asyncio hands it out in the order of arrival, which
is one of these runs.

`force_down` marks the node and nothing else. A task on its way writes
`healthy = True` when its connection or its reply comes in, whatever
`_forced_down` says by then (`forced_down_stays_iff`).
-/

namespace VaultKV.Gateway

/-- Where `send_frame` waits. -/
inductive Await where
  | lock
  | connection
  | drain
  | header
  | body
  | closed
  | finished
  deriving DecidableEq, Repr

/-- The lock of the node is held at this await. -/
def Await.holdsLock : Await → Bool
  | .lock => false
  | .finished => false
  | _ => true

/-- Who called `send_frame`: `ping` looks at the outcome itself. -/
inductive Caller where
  | ping
  | request
  deriving DecidableEq, Repr

structure Task where
  caller : Caller
  node : Nat
  await : Await
  deriving DecidableEq, Repr

/-- What an await comes back with. -/
inductive Outcome where
  | failed
  | done
  | reply (ack : Bool)
  deriving DecidableEq, Repr

/-- `send_frame` from the lock to its next await. -/
def sendFrame (n : Nat) (g : ClusterManager) : Await :=
  if (g.nodes n).connected && (g.nodes n).healthy then .drain else .connection

namespace Task

/-- `send_frame` raised. -/
def raised (t : Task) (g : ClusterManager) : ClusterManager :=
  match t.caller with
  | .ping => g.pinged t.node false
  | .request => g

/-- `send_frame` returned; `ack` tells whether an ACK was parsed. -/
def returned (t : Task) (ack : Bool) (g : ClusterManager) : ClusterManager :=
  match t.caller with
  | .ping => (g.received t.node).pinged t.node ack
  | .request => g.received t.node

/-- The task from one await to the next. A reply without a body is complete
with its header. -/
def resume (locked : Bool) (o : Outcome) (t : Task) (g : ClusterManager) :
    Await × ClusterManager :=
  match t.await, o with
  | .lock, .done => (if locked then .lock else sendFrame t.node g, g)
  | .connection, .done => (.drain, g.connect t.node true)
  | .connection, .failed => (.finished, t.raised (g.connect t.node false))
  | .drain, .done => (.header, g)
  | .drain, .failed => (.closed, g)
  | .header, .done => (.body, g)
  | .header, .reply ack => (.finished, t.returned ack g)
  | .header, .failed => (.closed, g)
  | .body, .reply ack => (.finished, t.returned ack g)
  | .body, .failed => (.closed, g)
  | .closed, _ => (.finished, t.raised (g.close t.node))
  | a, _ => (a, g)

/-- The task leaves its node healthy when it is resumed like this: its
connection is there, or its reply, which for `ping` must be an ACK. -/
def marksHealthy (o : Outcome) (t : Task) : Bool :=
  match t.await, o with
  | .connection, .done => true
  | .header, .reply ack => ack || decide (t.caller = .request)
  | .body, .reply ack => ack || decide (t.caller = .request)
  | _, _ => false

end Task

/-- The event loop with the tasks that were started. -/
structure EventLoop where
  manager : ClusterManager
  tasks : List Task := []

/-- What happens on the loop. A request whose payload cannot be encoded ends
before it sends anything. -/
inductive LoopEvent where
  | ping (n : Nat)
  | get (nodeId : Option Nat) (encodes : Bool)
  | toLeader (encodes : Bool)
  | resume (i : Nat) (o : Outcome)
  | forceDown (n : Nat)
  | recover (n : Nat)
  deriving DecidableEq, Repr

namespace EventLoop

/-- `self._lock` of the node is held. -/
def locked (n : Nat) (l : EventLoop) : Bool :=
  l.tasks.any fun t => decide (t.node = n) && t.await.holdsLock

/-- A call of `send_frame` on this node, up to its first await; there may be
no such node. -/
def start (caller : Caller) (n : Nat) (l : EventLoop) : EventLoop :=
  if n ∈ l.manager.ids then
    { l with tasks := l.tasks ++
        [⟨caller, n, if l.locked n then .lock else sendFrame n l.manager⟩] }
  else l

/-- `ping`. -/
def ping (n : Nat) (l : EventLoop) : EventLoop :=
  if n ∈ l.manager.ids ∧ n ∈ l.manager.forcedDown then
    { l with manager := l.manager.pingForcedDown n }
  else l.start .ping n

/-- `get`. -/
def get (nodeId : Option Nat) (encodes : Bool) (l : EventLoop) : EventLoop :=
  let r := l.manager.readNode nodeId
  let l := { l with manager := r.2 }
  if encodes then l.start .request r.1 else l

/-- `set`, `delete` and `scan`. -/
def toLeader (encodes : Bool) (l : EventLoop) : EventLoop :=
  let g := l.manager.electLeader
  let l := { l with manager := g }
  if encodes then l.start .request g.leaderId else l

def resume (i : Nat) (o : Outcome) (l : EventLoop) : EventLoop :=
  match l.tasks[i]? with
  | none => l
  | some t =>
      let r := t.resume (l.locked t.node) o l.manager
      { manager := r.2, tasks := l.tasks.set i { t with await := r.1 } }

def step (ev : LoopEvent) (l : EventLoop) : EventLoop :=
  match ev with
  | .ping n => l.ping n
  | .get nodeId encodes => l.get nodeId encodes
  | .toLeader encodes => l.toLeader encodes
  | .resume i o => l.resume i o
  | .forceDown n => { l with manager := l.manager.forceDown n }
  | .recover n => { l with manager := l.manager.recover n }

end EventLoop

/-! ## Forced down -/

namespace ClusterManager

/-- Every node that is forced down counts as not healthy and not leading. -/
def StaysDown (g : ClusterManager) : Prop :=
  ∀ n ∈ g.forcedDown, (g.nodes n).healthy = false ∧ (g.nodes n).isLeader = false

instance (g : ClusterManager) : Decidable g.StaysDown :=
  inferInstanceAs (Decidable (∀ n ∈ g.forcedDown, _))

namespace StaysDown

variable {g : ClusterManager}

/-- An election leads with healthy nodes only. -/
theorem electLeader (h : g.StaysDown) : g.electLeader.StaysDown := by
  intro n hn
  have hdown := h n hn
  unfold ClusterManager.electLeader
  dsimp only
  by_cases hid : n ∈ g.ids
  · rw [if_pos hid]
    exact ⟨hdown.1, by rw [hdown.1, Bool.and_false]⟩
  · rw [if_neg hid]
    exact hdown

/-- A change of one node matters if that node is forced down. -/
theorem modify_iff (h : g.StaysDown) (n : Nat) (f : VaultKVNode → VaultKVNode) :
    (g.modify n f).StaysDown ↔
      (n ∈ g.forcedDown → (f (g.nodes n)).healthy = false ∧ (f (g.nodes n)).isLeader = false)
        := by
  constructor
  · intro hnew hn
    have hself := hnew n hn
    rw [nodes_modify_self] at hself
    exact hself
  · intro hf m hm
    by_cases hmn : m = n
    · subst hmn
      rw [nodes_modify_self]
      exact hf hm
    · rw [nodes_modify_of_ne hmn]
      exact h m hm

/-- `healthy` is written, nothing else that counts here. -/
theorem healthy_iff (h : g.StaysDown) {n : Nat} {f : VaultKVNode → VaultKVNode} {up : Bool}
    (hup : (f (g.nodes n)).healthy = up)
    (hlead : (f (g.nodes n)).isLeader = (g.nodes n).isLeader) :
    (g.modify n f).StaysDown ↔ (up = true → n ∉ g.forcedDown) := by
  rw [h.modify_iff, hup, hlead]
  cases up with
  | false => exact iff_of_true (fun hn => ⟨rfl, (h n hn).2⟩) (fun hf => by cases hf)
  | true =>
      refine ⟨fun hf _ hn => ?_, fun hf hn => absurd hn (hf rfl)⟩
      cases (hf hn).1

theorem forceDown (h : g.StaysDown) (n : Nat) : (g.forceDown n).StaysDown := by
  unfold ClusterManager.forceDown
  by_cases hid : n ∉ g.ids
  · rw [if_pos hid]; exact h
  rw [if_neg hid]
  refine electLeader fun m hm => ?_
  by_cases hmn : m = n
  · subst hmn
    rw [nodes_modify_self]
    exact ⟨rfl, rfl⟩
  · rw [nodes_modify_of_ne hmn]
    exact h m ((List.mem_cons.mp hm).resolve_left hmn)

theorem recover (h : g.StaysDown) (n : Nat) : (g.recover n).StaysDown :=
  fun m hm => h m (List.mem_filter.mp hm).1

theorem readNode (h : g.StaysDown) (nodeId : Option Nat) : (g.readNode nodeId).2.StaysDown := by
  have hpick : ∀ m, (if m ∈ g.ids then (m, g)
      else (g.electLeader.leaderId, g.electLeader)).2.StaysDown := by
    intro m
    by_cases hid : m ∈ g.ids
    · rw [if_pos hid]; exact h
    · rw [if_neg hid]; exact h.electLeader
  exact hpick _

end StaysDown

end ClusterManager

open ClusterManager

namespace Task

variable {g : ClusterManager}

theorem staysDown_raised (h : g.StaysDown) (t : Task) : (t.raised g).StaysDown := by
  unfold raised
  cases t.caller with
  | ping => exact (h.healthy_iff rfl rfl).mpr fun hf => by cases hf
  | request => exact h

theorem staysDown_returned_iff (h : g.StaysDown) (t : Task) (ack : Bool) :
    (t.returned ack g).StaysDown ↔
      ((ack || decide (t.caller = .request)) = true → t.node ∉ g.forcedDown) := by
  unfold returned
  cases hc : t.caller with
  | request =>
      rw [decide_eq_true rfl, Bool.or_true]
      exact h.healthy_iff rfl rfl
  | ping =>
      -- the second write of `healthy` covers the first
      have htwice : (g.received t.node).pinged t.node ack = g.pinged t.node ack := by
        simp only [received, pinged, ClusterManager.modify, Function.update_self,
          Function.update_idem]
      dsimp only
      rw [htwice, decide_eq_false (by decide), Bool.or_false]
      exact h.healthy_iff rfl rfl

/-- **One piece of a task** keeps the forced-down nodes down exactly when it
does not mark one of them healthy. -/
theorem staysDown_resume_iff (h : g.StaysDown) (locked : Bool) (o : Outcome) (t : Task) :
    (t.resume locked o g).2.StaysDown ↔
      (t.marksHealthy o = true → t.node ∉ g.forcedDown) := by
  have hclosed : ∀ f : VaultKVNode → VaultKVNode,
      (f (g.nodes t.node)).healthy = false →
      (f (g.nodes t.node)).isLeader = (g.nodes t.node).isLeader →
      (t.raised (g.modify t.node f)).StaysDown := fun f hf hl =>
    staysDown_raised ((h.healthy_iff hf hl).mpr fun hup => by cases hup) t
  have hidle : ∀ {P : Prop}, g.StaysDown ↔ (false = true → P) :=
    iff_of_true h fun hf => by cases hf
  unfold resume marksHealthy
  cases t.await <;> cases o <;> dsimp only
  all_goals first
    | exact hidle
    | exact staysDown_returned_iff h t _
    | exact h.healthy_iff rfl rfl
    | exact iff_of_true (hclosed _ rfl rfl) fun hf => by cases hf

end Task

namespace EventLoop

variable {l : EventLoop}

theorem manager_start (caller : Caller) (n : Nat) (l : EventLoop) :
    (l.start caller n).manager = l.manager := by
  unfold start
  split <;> rfl

/-- The event does not mark a node healthy that is forced down. -/
def KeepsDown (ev : LoopEvent) (l : EventLoop) : Prop :=
  match ev with
  | .resume i o =>
      ∀ t ∈ l.tasks[i]?, t.marksHealthy o = true → t.node ∉ l.manager.forcedDown
  | _ => True

instance (ev : LoopEvent) (l : EventLoop) : Decidable (KeepsDown ev l) :=
  match ev with
  | .resume _ _ => inferInstanceAs (Decidable (∀ t ∈ _, _))
  | .ping _ => isTrue trivial
  | .get _ _ => isTrue trivial
  | .toLeader _ => isTrue trivial
  | .forceDown _ => isTrue trivial
  | .recover _ => isTrue trivial

/-- **One event.** -/
theorem staysDown_step_iff (h : l.manager.StaysDown) (ev : LoopEvent) :
    (l.step ev).manager.StaysDown ↔ KeepsDown ev l := by
  cases ev with
  | ping n =>
      refine iff_of_true ?_ trivial
      rw [step, ping]
      split
      · exact (h.modify_iff n _).mpr fun _ => ⟨rfl, rfl⟩
      · rw [manager_start]; exact h
  | get nodeId encodes =>
      refine iff_of_true ?_ trivial
      rw [step, get]
      cases encodes with
      | true => exact (congrArg StaysDown (manager_start ..)).mpr (h.readNode nodeId)
      | false => exact h.readNode nodeId
  | toLeader encodes =>
      refine iff_of_true ?_ trivial
      rw [step, toLeader]
      cases encodes with
      | true => exact (congrArg StaysDown (manager_start ..)).mpr h.electLeader
      | false => exact h.electLeader
  | resume i o =>
      rw [step, resume, KeepsDown]
      cases ht : l.tasks[i]? with
      | none => exact iff_of_true h fun t hmem => by cases hmem
      | some t =>
          simp only [Option.mem_some_iff, forall_eq']
          exact t.staysDown_resume_iff h _ o
  | forceDown n => exact iff_of_true (h.forceDown n) trivial
  | recover n => exact iff_of_true (h.recover n) trivial

end EventLoop

/-- **A forced-down node stays down exactly when nobody reaches it.** For
every set of nodes, whatever their state when the loop starts with none of
them forced down, and every order of calls and resumptions: in every state
of the run every node in `_forced_down` has `healthy = False` and
`is_leader = False`, if and only if no connection to a node is made, and no
reply (to `ping`: no ACK) comes in from it, while it is forced down. -/
theorem forced_down_stays_iff {g : ClusterManager} (hg : g.forcedDown = [])
    (evs : List LoopEvent) :
    (∀ done, done <+: evs →
      (Lib.runAlong EventLoop.step done { manager := g }).manager.StaysDown) ↔
      Lib.Along EventLoop.step EventLoop.KeepsDown evs { manager := g } := by
  have hstart : g.StaysDown := fun n hn => by rw [hg] at hn; cases hn
  exact Lib.always_iff_along (I := fun l : EventLoop => l.manager.StaysDown)
    (fun ev l h => EventLoop.staysDown_step_iff h ev) evs hstart

/-- Two nodes after `startup`, both healthy, node 1 leading. -/
def twoNodes : ClusterManager :=
  (((init [1, 2]).connect 1 true).connect 2 true).electLeader

/-- Node 2 is forced down while nothing is under way, the others work. -/
def downInPeace : List LoopEvent :=
  [.forceDown 2, .ping 2, .toLeader true, .resume 0 .done, .resume 0 (.reply true),
   .recover 2, .ping 2, .resume 1 .done, .resume 1 .done, .resume 1 (.reply true)]

theorem downInPeace_stays :
    twoNodes.forcedDown = [] ∧ ∀ done, done <+: downInPeace →
      (Lib.runAlong EventLoop.step done { manager := twoNodes }).manager.StaysDown :=
  ⟨rfl, (forced_down_stays_iff rfl downInPeace).mpr (by decide +kernel)⟩

/-- The node at the end of a run. -/
def nodeAfter (g : ClusterManager) (evs : List LoopEvent) (n : Nat) : VaultKVNode :=
  (Lib.runAlong EventLoop.step evs { manager := g }).manager.nodes n

/-- **A forced-down node comes up again**, in three ways: the reply to a
`ping` that was under way; a `get` that names the node; a `set` when no
other node is healthy, after which the node is leader as well. -/
theorem forced_down_comes_up :
    (nodeAfter twoNodes
      [.ping 2, .resume 0 .done, .forceDown 2, .resume 0 (.reply true)] 2).healthy = true ∧
    (nodeAfter twoNodes [.forceDown 2, .get (some 2) true, .resume 0 .done] 2).healthy
      = true ∧
    (nodeAfter (((init [1]).connect 1 true).electLeader)
      [.forceDown 1, .toLeader true, .resume 0 .done, .toLeader true] 1).healthy = true ∧
    (nodeAfter (((init [1]).connect 1 true).electLeader)
      [.forceDown 1, .toLeader true, .resume 0 .done, .toLeader true] 1).isLeader = true := by
  decide +kernel

end VaultKV.Gateway
