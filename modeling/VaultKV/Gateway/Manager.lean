import VaultKV.Gateway

/-!
# Gateway — the cluster as the gateway sees it (`cluster.py`)

`ClusterManager` sends writes to one node, the leader, and picks it among
the nodes it believes healthy: the present leader while it is healthy, else
the node with the LOWEST id. It does not ask the nodes what they hold.

The methods are coroutines. Each definition here is a piece of one between
two awaits.
-/

namespace VaultKV.Gateway

open Lib

/-- `VaultKVNode`: of its metrics what decides where a request goes, and
whether there is a connection. -/
structure VaultKVNode where
  healthy : Bool := false
  isLeader : Bool := false
  connected : Bool := false
  deriving DecidableEq, Repr

/-- `ClusterManager`; `ids` are the keys of `nodes` as configured. -/
structure ClusterManager where
  ids : List Nat
  nodes : Nat → VaultKVNode := fun _ => {}
  leaderId : Nat
  forcedDown : List Nat := []

namespace ClusterManager

/-- `ClusterManager.__init__`. -/
def init (ids : List Nat) : ClusterManager := { ids := ids, leaderId := ids.headD 1 }

/-- The node is changed. -/
def modify (n : Nat) (f : VaultKVNode → VaultKVNode) (g : ClusterManager) : ClusterManager :=
  { g with nodes := Function.update g.nodes n (f (g.nodes n)) }

@[simp] theorem nodes_modify_self (n : Nat) (f : VaultKVNode → VaultKVNode)
    (g : ClusterManager) : (g.modify n f).nodes n = f (g.nodes n) :=
  Function.update_self n _ g.nodes

theorem nodes_modify_of_ne {m n : Nat} (h : m ≠ n) (f : VaultKVNode → VaultKVNode)
    (g : ClusterManager) : (g.modify n f).nodes m = g.nodes m :=
  Function.update_of_ne h _ g.nodes

/-- The ids of the healthy nodes, sorted. -/
def healthyIds (g : ClusterManager) : List Nat :=
  (g.ids.filter fun n => (g.nodes n).healthy).insertionSort (· ≤ ·)

/-- `_elect_leader`. -/
def electLeader (g : ClusterManager) : ClusterManager :=
  let leaderId := match g.healthyIds with
    | [] => g.leaderId
    | n :: rest => if g.leaderId ∈ n :: rest then g.leaderId else n
  { g with
    leaderId := leaderId
    nodes := fun n =>
      if n ∈ g.ids then
        { g.nodes n with isLeader := decide (n = leaderId) && (g.nodes n).healthy }
      else g.nodes n }

/-- `VaultKVNode.connect`, when it knows the outcome. -/
def connect (n : Nat) (ok : Bool) (g : ClusterManager) : ClusterManager :=
  g.modify n fun node => { node with healthy := ok, connected := ok }

/-- `VaultKVNode.close`, at its end. -/
def close (n : Nat) (g : ClusterManager) : ClusterManager :=
  g.modify n fun node => { node with healthy := false, connected := false }

/-- `send_frame`, when the reply has come in. -/
def received (n : Nat) (g : ClusterManager) : ClusterManager :=
  g.modify n fun node => { node with healthy := true }

/-- `ping` of a node that is forced down. -/
def pingForcedDown (n : Nat) (g : ClusterManager) : ClusterManager :=
  g.modify n fun node => { node with healthy := false, isLeader := false }

/-- `ping`, when it is known whether an ACK came back. -/
def pinged (n : Nat) (ack : Bool) (g : ClusterManager) : ClusterManager :=
  g.modify n fun node => { node with healthy := ack }

/-- `force_down`. -/
def forceDown (n : Nat) (g : ClusterManager) : ClusterManager :=
  if n ∉ g.ids then g
  else
    let g := { g with forcedDown := n :: g.forcedDown }
    (g.modify n fun node => { node with healthy := false, isLeader := false }).electLeader

/-- `recover`. -/
def recover (n : Nat) (g : ClusterManager) : ClusterManager :=
  { g with forcedDown := g.forcedDown.filter (· ≠ n) }

/-- The node `get` asks: the one named, if any, else the leader of the last
election. -/
def readNode (nodeId : Option Nat) (g : ClusterManager) : Nat × ClusterManager :=
  let n := match nodeId with
    | none => g.leaderId
    | some n => if n = 0 then g.leaderId else n
  if n ∈ g.ids then (n, g) else (g.electLeader.leaderId, g.electLeader)

/-- The nodes are these, and the leader is one of them. -/
structure Led (ids : List Nat) (g : ClusterManager) : Prop where
  ids_eq : g.ids = ids
  leader : g.leaderId ∈ ids

theorem mem_healthyIds {g : ClusterManager} {n : Nat} :
    n ∈ g.healthyIds ↔ n ∈ g.ids ∧ (g.nodes n).healthy = true := by
  rw [healthyIds, List.mem_insertionSort, List.mem_filter]

namespace Led

variable {ids : List Nat} {g : ClusterManager}

theorem electLeader (h : g.Led ids) : g.electLeader.Led ids := by
  refine ⟨h.ids_eq, ?_⟩
  show (match g.healthyIds with
    | [] => g.leaderId
    | n :: rest => if g.leaderId ∈ n :: rest then g.leaderId else n) ∈ ids
  cases hids : g.healthyIds with
  | nil => exact h.leader
  | cons n rest =>
      dsimp only
      by_cases hmem : g.leaderId ∈ n :: rest
      · rw [if_pos hmem]; exact h.leader
      · rw [if_neg hmem, ← h.ids_eq]
        exact (mem_healthyIds.mp (hids ▸ List.mem_cons_self)).1

theorem modify (h : g.Led ids) (n : Nat) (f : VaultKVNode → VaultKVNode) :
    (g.modify n f).Led ids := ⟨h.ids_eq, h.leader⟩

theorem forceDown (h : g.Led ids) (n : Nat) : (g.forceDown n).Led ids := by
  unfold ClusterManager.forceDown
  by_cases hid : n ∉ g.ids
  · rw [if_pos hid]; exact h
  · rw [if_neg hid]
    exact electLeader ⟨h.ids_eq, h.leader⟩

theorem recover (h : g.Led ids) (n : Nat) : (g.recover n).Led ids := ⟨h.ids_eq, h.leader⟩

theorem readNode (h : g.Led ids) : g.readNode none = (g.leaderId, g) :=
  if_pos (h.ids_eq.symm ▸ h.leader)

end Led

end ClusterManager

/-! ## Replies to a read -/

/-- What `get` returns. -/
inductive GetResult (Text : Type) where
  | found (value : Text)
  | notFound (error : Option Text)
  deriving DecidableEq, Repr

/-- `get`, from the reply on. -/
def readReply {Text : Type} (decode : Bytes → Text) (reply : Frame) : GetResult Text :=
  match reply.type with
  | .val => .found (parseValuePayload decode reply.payload)
  | .err => .notFound (some (parseErrPayload decode reply.payload).2)
  | _ => .notFound none

end VaultKV.Gateway
