import VaultKV.Gateway.Tasks

/-!
# Gateway — who leads (`cluster.py`, `main.py`)

Besides the coroutines of `Tasks` the gateway stops nodes and starts them
again, connects at startup, and elects in every round of `metrics_loop`. Over
any interleaving of all of these at most one node is shown as leader, and the
leader is changed for ONE reason: it is not healthy when an election is held.
The new one is the healthy node with the lowest id. So a node that comes back
does not take its place back, and a leader that stays healthy goes on leading
whatever happens to the others.
-/

namespace VaultKV.Gateway

open Lib

/-- What happens in the gateway: the pieces of the coroutines, and the ends
of `kill_node` with a container that stops, of `restart_node`, of a `connect`
at startup, and of a round of `metrics_loop`. -/
inductive GatewayEvent where
  | loop (ev : LoopEvent)
  | killed (n : Nat)
  | restarted (n : Nat) (ok : Bool)
  | connected (n : Nat) (ok : Bool)
  | elect
  deriving DecidableEq, Repr

namespace GatewayEvent

/-- `kill_node`, when `_docker_control` has stopped the container. -/
def kill (n : Nat) (g : ClusterManager) : ClusterManager :=
  (g.modify n fun node => { node with healthy := false, isLeader := false }).electLeader

/-- One event. The requests for unknown nodes are refused with 404. -/
def step (ev : GatewayEvent) (l : EventLoop) : EventLoop :=
  match ev with
  | .loop ev => EventLoop.step ev l
  | .killed n => if n ∈ l.manager.ids then { l with manager := kill n l.manager } else l
  | .restarted n ok =>
      if n ∈ l.manager.ids then { l with manager := (l.manager.connect n ok).electLeader } else l
  | .connected n ok =>
      if n ∈ l.manager.ids then { l with manager := l.manager.connect n ok } else l
  | .elect => { l with manager := l.manager.electLeader }

end GatewayEvent

namespace ClusterManager

/-! ## What an event can do -/

/-- The leader stays, and no node is shown as leader that was not before. -/
structure Holds (g g' : ClusterManager) : Prop where
  ids : g'.ids = g.ids
  leaderId : g'.leaderId = g.leaderId
  flags : ∀ n, (g'.nodes n).isLeader = true → (g.nodes n).isLeader = true

namespace Holds

variable {g g' g'' : ClusterManager}

theorem refl (g : ClusterManager) : Holds g g := ⟨rfl, rfl, fun _ h => h⟩

theorem trans (h : Holds g g') (h' : Holds g' g'') : Holds g g'' :=
  ⟨h'.ids.trans h.ids, h'.leaderId.trans h.leaderId, fun n hn => h.flags n (h'.flags n hn)⟩

theorem modify (g : ClusterManager) (n : Nat) {f : VaultKVNode → VaultKVNode}
    (hf : (f (g.nodes n)).isLeader = true → (g.nodes n).isLeader = true) :
    Holds g (g.modify n f) := by
  refine ⟨rfl, rfl, fun m hm => ?_⟩
  by_cases hmn : m = n
  · subst hmn
    rw [nodes_modify_self] at hm
    exact hf hm
  · rwa [nodes_modify_of_ne hmn] at hm

end Holds

/-- Nothing that concerns the leader, and perhaps an election behind it. -/
def Moves (g g' : ClusterManager) : Prop :=
  ∃ g₁, Holds g g₁ ∧ (g' = g₁ ∨ g' = g₁.electLeader)

theorem Holds.moves {g g' : ClusterManager} (h : Holds g g') : Moves g g' := ⟨g', h, .inl rfl⟩

theorem Holds.elects {g g' : ClusterManager} (h : Holds g g') : Moves g g'.electLeader :=
  ⟨g', h, .inr rfl⟩

theorem holds_connect (n : Nat) (ok : Bool) (g : ClusterManager) : Holds g (g.connect n ok) :=
  Holds.modify g n id

/-- A node that is marked down is not shown as leader. -/
theorem holds_down (n : Nat) (g : ClusterManager) :
    Holds g (g.modify n fun node => { node with healthy := false, isLeader := false }) :=
  Holds.modify g n fun h => by cases h

theorem holds_raised (t : Task) (g : ClusterManager) : Holds g (t.raised g) := by
  unfold Task.raised
  cases t.caller with
  | ping => exact Holds.modify g t.node id
  | request => exact Holds.refl g

theorem holds_returned (t : Task) (ack : Bool) (g : ClusterManager) :
    Holds g (t.returned ack g) := by
  have hreceived : Holds g (g.received t.node) := Holds.modify g t.node id
  unfold Task.returned
  cases t.caller with
  | ping => exact hreceived.trans (Holds.modify _ t.node id)
  | request => exact hreceived

theorem holds_resume (locked : Bool) (o : Outcome) (t : Task) (g : ClusterManager) :
    Holds g (t.resume locked o g).2 := by
  -- `close` leaves a node as a failed `connect` does
  have hclose : Holds g (g.close t.node) := holds_connect t.node false g
  unfold Task.resume
  cases t.await <;> cases o <;> dsimp only
  all_goals first
    | exact Holds.refl g
    | exact holds_connect t.node true g
    | exact holds_returned t _ g
    | exact hclose.trans (holds_raised t _)

theorem moves_readNode (nodeId : Option Nat) (g : ClusterManager) :
    Moves g (g.readNode nodeId).2 := by
  have hpick : ∀ m, Moves g (if m ∈ g.ids then (m, g)
      else (g.electLeader.leaderId, g.electLeader)).2 := by
    intro m
    split
    · exact (Holds.refl g).moves
    · exact (Holds.refl g).elects
  exact hpick _

theorem moves_forceDown (n : Nat) (g : ClusterManager) : Moves g (g.forceDown n) := by
  unfold ClusterManager.forceDown
  split
  · exact (Holds.refl g).moves
  · have hmark : Holds g { g with forcedDown := n :: g.forcedDown } := ⟨rfl, rfl, fun _ h => h⟩
    exact (hmark.trans (holds_down n _)).elects

/-- **What one event can do** to the leader and to the flags. -/
theorem moves_step (ev : GatewayEvent) (l : EventLoop) :
    Moves l.manager (ev.step l).manager := by
  cases ev with
  | loop ev =>
      cases ev with
      | ping n =>
          unfold GatewayEvent.step EventLoop.step EventLoop.ping
          dsimp only
          split
          · exact (holds_down n l.manager).moves
          · rw [EventLoop.manager_start]
            exact (Holds.refl _).moves
      | get nodeId encodes =>
          unfold GatewayEvent.step EventLoop.step EventLoop.get
          dsimp only
          split
          · rw [EventLoop.manager_start]
            exact moves_readNode nodeId l.manager
          · exact moves_readNode nodeId l.manager
      | toLeader encodes =>
          unfold GatewayEvent.step EventLoop.step EventLoop.toLeader
          dsimp only
          split
          · rw [EventLoop.manager_start]
            exact (Holds.refl _).elects
          · exact (Holds.refl _).elects
      | resume i o =>
          unfold GatewayEvent.step EventLoop.step EventLoop.resume
          dsimp only
          split
          · exact (Holds.refl _).moves
          · exact (holds_resume _ o _ l.manager).moves
      | forceDown n => exact moves_forceDown n l.manager
      | recover n => exact Holds.moves ⟨rfl, rfl, fun _ h => h⟩
  | killed n =>
      unfold GatewayEvent.step
      dsimp only
      split
      · exact (holds_down n l.manager).elects
      · exact (Holds.refl _).moves
  | restarted n ok =>
      unfold GatewayEvent.step
      dsimp only
      split
      · exact (holds_connect n ok l.manager).elects
      · exact (Holds.refl _).moves
  | connected n ok =>
      unfold GatewayEvent.step
      dsimp only
      split
      · exact (holds_connect n ok l.manager).moves
      · exact (Holds.refl _).moves
  | elect => exact (Holds.refl _).elects

/-! ## One leader -/

/-- Only the leader is shown as one. -/
def OneLeader (g : ClusterManager) : Prop :=
  ∀ n, (g.nodes n).isLeader = true → n = g.leaderId ∧ n ∈ g.ids

/-- The leader stays, or it is not healthy and the healthy node with the
lowest id follows it. -/
def Succeeds (g g' : ClusterManager) : Prop :=
  g'.leaderId = g.leaderId ∨
    g.leaderId ∉ g'.healthyIds ∧ g'.leaderId ∈ g'.healthyIds ∧
      ∀ n ∈ g'.healthyIds, g'.leaderId ≤ n

theorem OneLeader.holds {g g' : ClusterManager} (h : g.OneLeader) (hg : Holds g g') :
    g'.OneLeader := by
  intro n hn
  rw [hg.leaderId, hg.ids]
  exact h n (hg.flags n hn)

theorem OneLeader.electLeader {g : ClusterManager} (h : g.OneLeader) : g.electLeader.OneLeader := by
  intro n hn
  by_cases hid : n ∈ g.ids
  · refine ⟨?_, hid⟩
    rw [ClusterManager.electLeader] at hn
    dsimp only at hn
    rw [if_pos hid, Bool.and_eq_true] at hn
    exact of_decide_eq_true hn.1
  · rw [ClusterManager.electLeader] at hn
    dsimp only at hn
    rw [if_neg hid] at hn
    exact absurd (h n hn).2 hid

/-- An election changes no one's health. -/
theorem healthyIds_electLeader (g : ClusterManager) : g.electLeader.healthyIds = g.healthyIds := by
  have hsame : ∀ n ∈ g.ids, (g.electLeader.nodes n).healthy = (g.nodes n).healthy := by
    intro n hn
    rw [ClusterManager.electLeader]
    dsimp only
    rw [if_pos hn]
  rw [healthyIds, healthyIds]
  exact congrArg (List.insertionSort (· ≤ ·)) (List.filter_congr hsame)

theorem leaderId_electLeader_of_nil {g : ClusterManager} (h : g.healthyIds = []) :
    g.electLeader.leaderId = g.leaderId := by
  rw [ClusterManager.electLeader]
  dsimp only
  rw [h]

theorem leaderId_electLeader_of_cons {g : ClusterManager} {n : Nat} {rest : List Nat}
    (h : g.healthyIds = n :: rest) :
    g.electLeader.leaderId = if g.leaderId ∈ n :: rest then g.leaderId else n := by
  rw [ClusterManager.electLeader]
  dsimp only
  rw [h]

theorem succeeds_electLeader (g : ClusterManager) : Succeeds g g.electLeader := by
  rw [Succeeds, healthyIds_electLeader]
  have hsorted := List.pairwise_insertionSort (· ≤ ·) (g.ids.filter fun n => (g.nodes n).healthy)
  rw [← healthyIds] at hsorted
  cases hids : g.healthyIds with
  | nil => exact .inl (leaderId_electLeader_of_nil hids)
  | cons n rest =>
      rw [leaderId_electLeader_of_cons hids]
      by_cases hmem : g.leaderId ∈ n :: rest
      · exact .inl (if_pos hmem)
      · rw [hids] at hsorted
        rw [if_neg hmem]
        refine .inr ⟨hmem, List.mem_cons_self, fun m hm => ?_⟩
        rcases List.mem_cons.mp hm with rfl | hm
        · exact le_rfl
        · exact (List.pairwise_cons.mp hsorted).1 m hm

/-- **One event** keeps a single leader, and changes it for one reason only. -/
theorem Moves.leads {g g' : ClusterManager} (hmoves : Moves g g') (h : g.OneLeader) :
    g'.OneLeader ∧ Succeeds g g' := by
  obtain ⟨g₁, hholds, rfl | rfl⟩ := hmoves
  · exact ⟨h.holds hholds, .inl hholds.leaderId⟩
  · refine ⟨(h.holds hholds).electLeader, ?_⟩
    have hsucceeds := succeeds_electLeader g₁
    rwa [Succeeds, hholds.leaderId] at hsucceeds

/-- **Any events**: only the leader is shown as one. -/
theorem oneLeader_run (evs : List GatewayEvent) {l : EventLoop} (h : l.manager.OneLeader) :
    (runAlong GatewayEvent.step evs l).manager.OneLeader :=
  runAlong_keeps (I := fun l => l.manager.OneLeader)
    (fun ev l hl => ((moves_step ev l).leads hl).1) evs h

/-- **A leader that stays healthy goes on leading.** -/
theorem leaderId_run {n : Nat} (evs : List GatewayEvent) :
    ∀ {l : EventLoop}, l.manager.OneLeader → l.manager.leaderId = n →
      Along GatewayEvent.step (fun ev l => n ∈ (ev.step l).manager.healthyIds) evs l →
      (runAlong GatewayEvent.step evs l).manager.leaderId = n := by
  induction evs with
  | nil => intro l _ hn _; exact hn
  | cons ev evs ih =>
      intro l hone hn hhealthy
      obtain ⟨hone', hsucceeds⟩ := (moves_step ev l).leads hone
      refine ih hone' ?_ hhealthy.2
      rcases hsucceeds with hsame | ⟨hleft, -⟩
      · exact hsame.trans hn
      · exact absurd hhealthy.1 (hn ▸ hleft)

/-- **Leadership in the gateway.** Over any interleaving of requests, pings,
connections, kills, restarts and elections: at most one node is shown as
leader, and it is the one `_leader_id` names; an event changes the leader
only if the old one is not healthy, and then to the healthy node with the
lowest id; and a leader that is healthy after every further event leads in
the end. -/
theorem leader_changes_only_when_unhealthy (ids : List Nat) (evs : List GatewayEvent) :
    let l := runAlong GatewayEvent.step evs { manager := ClusterManager.init ids }
    l.manager.OneLeader ∧ (∀ ev, Succeeds l.manager (GatewayEvent.step ev l).manager) ∧
      ∀ more, Along GatewayEvent.step
          (fun ev l' => l.manager.leaderId ∈ (ev.step l').manager.healthyIds) more l →
        (runAlong GatewayEvent.step more l).manager.leaderId = l.manager.leaderId := by
  intro l
  have hone : l.manager.OneLeader := oneLeader_run evs fun n hn => by cases hn
  exact ⟨hone, fun ev => ((moves_step ev l).leads hone).2,
    fun more hhealthy => leaderId_run more hone rfl hhealthy⟩

/-- Three nodes connect; the first one is stopped, and comes back. -/
def stoppedAndBack : List GatewayEvent :=
  [.connected 1 true, .connected 2 true, .connected 3 true, .elect, .killed 1]

theorem stoppedAndBack_leads :
    let l := runAlong GatewayEvent.step stoppedAndBack { manager := ClusterManager.init [3, 1, 2] }
    let back := [GatewayEvent.restarted 1 true, .elect, .loop (.toLeader true)]
    (runAlong GatewayEvent.step [.connected 3 false, .elect] l).manager.leaderId = 2 ∧
      (runAlong GatewayEvent.step back l).manager.leaderId = l.manager.leaderId := by
  intro l back
  refine ⟨by decide +kernel, ?_⟩
  exact (leader_changes_only_when_unhealthy [3, 1, 2] stoppedAndBack).2.2 back
    (by decide +kernel)

end ClusterManager

end VaultKV.Gateway
