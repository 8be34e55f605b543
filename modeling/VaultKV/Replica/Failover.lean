import VaultKV.Gateway.Manager
import VaultKV.Replica.Agreement

/-!
# Replica — the cluster behind the gateway

Clients write through the gateway, which sends each write to the node it
takes for the leader. A node that is down takes no request, executes no
frame and answers nothing for a while; it keeps what it has. When the
gateway believes the leader down it turns to another node, and nothing
brings that node what it missed.

A read is answered by the node that is the leader at that time, from what
THAT node took: as the leader of earlier writes, or as a peer.
-/

namespace VaultKV

open Lib Gateway

/-- A write on its way from the gateway to a node and back. `call` is the
call the node makes of it, `awaited` whether the gateway still waits. -/
structure Request where
  node : Nat
  write : ClientWrite
  call : Option Nat := none
  awaited : Bool := true

/-- The nodes, the gateway, and what is between them. `results` are the
calls that have returned. -/
structure Deployed where
  net : Net
  gateway : ClusterManager
  requests : List Request := []
  results : List (Nat × Res Nat) := []

/-- The payload the gateway packs for a write. -/
def ClientWrite.payload? : ClientWrite → Option Bytes
  | .set key value => encodeSetPayload key value
  | .delete key => encodeKeyPayload key

/-- What happens next: a piece of a coroutine of the gateway, a request that
a node reads, or an event of the network. -/
inductive Happening (sys : System) where
  | issue (w : ClientWrite)
  | take (i : Nat) (io : ∀ n, WriteIo (sys.cfg n).cipher)
  | reply (i : Nat)
  | giveUp (i : Nat)
  | connect (n : Nat) (ok : Bool)
  | ping (n : Nat) (ack : Bool)
  | forceDown (n : Nat)
  | recover (n : Nat)
  | elect
  | network (ev : Event sys)

/-- What the gateway's callers see. -/
inductive Seen where
  | issued (w : ClientWrite)
  | answered (node : Nat) (w : ClientWrite) (ok : Bool)
  deriving DecidableEq

/-- The calls that return, of the notes. -/
def returns (notes : List Note) : List (Nat × Res Nat) :=
  notes.filterMap fun
    | .returned call _ _ res => some (call, res)
    | _ => none

namespace Deployed

variable (sys : System)

/-- The network's part in what happens. -/
def event (d : Deployed) : Happening sys → Option (Event sys)
  | .take i io =>
      match d.requests[i]? with
      | some r => if r.call = none then some (.start r.node (io r.node) r.write) else none
      | none => none
  | .network ev => some ev
  | _ => none

/-- The reply to a request, if its call has returned. -/
def replyTo (r : Request) (d : Deployed) : Option Frame := do
  let call ← r.call
  let res ← d.results.lookup call
  Engine.writeReply res

/-- The gateway's part in what happens. -/
def manage (h : Happening sys) (d : Deployed) : Deployed × List Seen :=
  match h with
  | .issue w =>
      let g := d.gateway.electLeader
      match w.payload? with
      | none => ({ d with gateway := g }, [])
      | some _ =>
          ({ d with gateway := g, requests := d.requests ++ [⟨g.leaderId, w, none, true⟩] },
            [.issued w])
  | .take i _ =>
      ({ d with requests := d.requests.modify i fun r =>
          if r.call = none then { r with call := some d.net.calls } else r }, [])
  | .reply i =>
      match d.requests[i]? with
      | none => (d, [])
      | some r =>
          match r.awaited, d.replyTo r with
          | true, some frame =>
              ({ d with
                  gateway := d.gateway.received r.node
                  requests := d.requests.modify i fun r => { r with awaited := false } },
                [.answered r.node r.write (frame.type = .ack)])
          | _, _ => (d, [])
  | .giveUp i =>
      match d.requests[i]? with
      | none => (d, [])
      | some r =>
          ({ d with
              gateway := d.gateway.close r.node
              requests := d.requests.modify i fun r => { r with awaited := false } }, [])
  | .connect n ok => ({ d with gateway := d.gateway.connect n ok }, [])
  | .ping n ack =>
      let g := if n ∈ d.gateway.forcedDown then d.gateway.pingForcedDown n
        else d.gateway.pinged n ack
      ({ d with gateway := g }, [])
  | .forceDown n => ({ d with gateway := d.gateway.forceDown n }, [])
  | .recover n => ({ d with gateway := d.gateway.recover n }, [])
  | .elect => ({ d with gateway := d.gateway.electLeader }, [])
  | .network _ => (d, [])

def step (h : Happening sys) (d : Deployed) : Deployed :=
  let d' := (d.manage sys h).1
  match d.event sys h with
  | none => d'
  | some ev =>
      let r := d.net.step sys ev
      { d' with net := r.1, results := d.results ++ returns r.2 }

def run : List (Happening sys) → Deployed → Deployed
  | [], d => d
  | h :: hs, d => run hs (d.step sys h)

/-- The events of the network in a run. -/
def events : List (Happening sys) → Deployed → List (Event sys)
  | [], _ => []
  | h :: hs, d => (d.event sys h).toList ++ events hs (d.step sys h)

/-- What the gateway's callers see of a run, oldest first. -/
def seen : List (Happening sys) → Deployed → List Seen
  | [], _ => []
  | h :: hs, d => (d.manage sys h).2 ++ seen hs (d.step sys h)

/-- `ClusterManager.get` without a node id, when the node asked answers. -/
def get {Text : Type} (decode : Bytes → Text) (io : ∀ n, WriteIo (sys.cfg n).cipher)
    (key : Bytes) (d : Deployed) : Option (GetResult Text) := do
  let n := (d.gateway.readNode none).1
  let payload ← encodeKeyPayload key
  let reply ← ((d.net.nodes n).handleFrame (sys.cfg n) (io n) ⟨.get, 0, payload⟩).1
  some (readReply decode reply)

end Deployed

/-! ## The run of the network -/

/-- The gateway does not touch the nodes. -/
theorem manage_net (sys : System) (h : Happening sys) (d : Deployed) :
    (d.manage sys h).1.net = d.net := by
  cases h with
  | issue w => simp only [Deployed.manage]; cases w.payload? <;> rfl
  | reply i =>
      simp only [Deployed.manage]
      cases d.requests[i]? with
      | none => rfl
      | some r =>
          dsimp only
          cases r.awaited
          · rfl
          · cases d.replyTo r <;> rfl
  | giveUp i =>
      simp only [Deployed.manage]
      cases d.requests[i]? <;> rfl
  | _ => rfl

theorem step_net (sys : System) (h : Happening sys) (d : Deployed) :
    (d.step sys h).net = d.net.run sys (d.event sys h).toList := by
  unfold Deployed.step
  cases d.event sys h with
  | none => exact manage_net sys h d
  | some ev => rfl

/-- **The nodes of a run** go through the events of the network. -/
theorem run_net (sys : System) (hs : List (Happening sys)) :
    ∀ d : Deployed, (d.run sys hs).net = d.net.run sys (d.events sys hs) := by
  induction hs with
  | nil => intro d; rfl
  | cons h hs ih =>
      intro d
      rw [Deployed.run, ih, Deployed.events, Net.run_append, step_net]

/-! ## The leader of a run -/

theorem led_manage {sys : System} {ids : List Nat} {d : Deployed} (hled : d.gateway.Led ids)
    (h : Happening sys) : (d.manage sys h).1.gateway.Led ids := by
  cases h with
  | issue w =>
      simp only [Deployed.manage]
      cases w.payload? <;> exact hled.electLeader
  | take i io => exact hled
  | reply i =>
      simp only [Deployed.manage]
      cases d.requests[i]? with
      | none => exact hled
      | some r =>
          dsimp only
          cases r.awaited
          · exact hled
          · cases d.replyTo r with
            | none => exact hled
            | some frame => exact ⟨hled.ids_eq, hled.leader⟩
  | giveUp i =>
      simp only [Deployed.manage]
      cases d.requests[i]? with
      | none => exact hled
      | some r => exact ⟨hled.ids_eq, hled.leader⟩
  | connect n ok => exact ⟨hled.ids_eq, hled.leader⟩
  | ping n ack =>
      simp only [Deployed.manage]
      by_cases hdown : n ∈ d.gateway.forcedDown
      · rw [if_pos hdown]; exact ⟨hled.ids_eq, hled.leader⟩
      · rw [if_neg hdown]; exact ⟨hled.ids_eq, hled.leader⟩
  | forceDown n => exact hled.forceDown n
  | recover n => exact hled.recover n
  | elect => exact hled.electLeader
  | network ev => exact hled

theorem led_run {sys : System} {ids : List Nat} (hs : List (Happening sys)) :
    ∀ {d : Deployed}, d.gateway.Led ids → (d.run sys hs).gateway.Led ids := by
  induction hs with
  | nil => intro d h; exact h
  | cons h hs ih =>
      intro d hled
      refine ih ?_
      unfold Deployed.step
      cases d.event sys h with
      | none => exact led_manage hled h
      | some ev => exact led_manage hled h

/-! ## Reads -/

theorem parseValuePayload_encodeValue {v : Bytes} (hv : v.length < 2 ^ 32) :
    parseValuePayload id (encodeValue v).payload = v := by
  have hlen : (encodeValue v).payload.length = 4 + v.length := by
    simp [encodeValue]
  have hcount : unpackFrom 4 (encodeValue v).payload 0 = v.length :=
    readLe_appendLe (show v.length < 256 ^ 4 by omega) v
  rw [parseValuePayload, if_neg (by omega), hcount, slice, encodeValue,
    List.drop_left' (length_appendLe 4 _), List.take_length]
  rfl

/-- The gateway reads the value of the node it asks. -/
theorem readReply_iff {e : Engine} {cfg : Config} (io : WriteIo cfg.cipher)
    {ws : List ClientWrite} (h : e.Tells cfg ws) {k : Bytes} (hk : k ≠ [])
    (hlen : k.length < 2 ^ 16) (v : Bytes) :
    ((e.handleFrame cfg io ⟨.get, 0, keyPayload k⟩).1.map (readReply id)
        = some (.found v)) ↔ latest k ws = some v := by
  have hanswer := (h.answers_iff hk (latest k ws)).mpr rfl
  rw [Engine.handleFrame, decodeCommand_get hlen]
  dsimp only
  cases hlast : latest k ws with
  | none =>
      rw [hlast] at hanswer
      obtain ⟨msg, hmsg⟩ := hanswer
      rw [hmsg]
      constructor
      · intro hfound; cases hfound
      · intro hfound; cases hfound
  | some u =>
      rw [hlast] at hanswer
      have hok : e.get cfg k = .ok u := hanswer
      rw [hok]
      show some (GetResult.found (parseValuePayload id (encodeValue u).payload))
        = some (.found v) ↔ _
      rw [parseValuePayload_encodeValue (h.latest_fits hlast), Option.some_inj, Option.some_inj,
        GetResult.found.injEq]

/-- **A read behind a failover.** In any run of the deployed cluster, with
nodes that go down and come back, elections, pings, and frames that are
lost, delayed and reordered, in which every engine is used one operation at
a time, without I/O failures and with safe compactions: `get` finds a value
exactly when the last write on the key that the present leader TOOK sets
it. -/
theorem get_after_failover_iff {sys : System} (hcfg : ∀ n, (sys.cfg n).Reliable)
    {d : Deployed} (hquiet : d.net.Quiet) {ids : List Nat} (hled : d.gateway.Led ids)
    (hopen : ∀ n ∈ ids, ∃ io,
      (Engine.fresh (sys.cfg n)).open (sys.cfg n) io = (.ok 0, d.net.nodes n))
    {hs : List (Happening sys)} (hord : d.net.Orderly sys (d.events sys hs))
    (io : ∀ n, WriteIo (sys.cfg n).cipher) {k : Bytes} (hk : k ≠ [])
    (hlen : k.length < 2 ^ 16) (v : Bytes) :
    (d.run sys hs).get sys id io k = some (.found v) ↔
      latest k (taken (d.run sys hs).gateway.leaderId (d.net.notes sys (d.events sys hs)))
        = some v := by
  have hled := led_run hs hled
  obtain ⟨openIo, hopen⟩ := hopen _ hled.leader
  have htells := tells_of_run (hcfg _) hquiet hopen hord
  rw [← run_net] at htells
  have hread := readReply_iff (io _) htells hk hlen v
  rw [← hread, Option.map_eq_bind, Deployed.get, hled.readNode,
    encodeKeyPayload_eq (show k.length < 256 ^ 2 by omega)]
  rfl

/-! ## The cluster of three behind the gateway -/

namespace Trio

/-- The gateway has connected to all three nodes. -/
def deployed : Deployed where
  net := opened
  gateway := (((ClusterManager.init [1, 2, 3]).connect 1 true).connect 2 true).connect 3 true
    |>.electLeader

/-- The write is issued, and the leader reads the request. -/
def write (k v : UInt8) : List (Happening trio) :=
  [.issue (.set [k] [v]), .take 0 fun _ => .quiet (0 : Nat)]

/-- The peer that is down refuses the connection at once. -/
def finishRefused : Event trio := .finish 0 (fun _ => (1, 0)) fun _ => .quiet (0 : Nat)

/-- A node goes down, and the gateway finds out. -/
def down (n : Nat) : List (Happening trio) := [.ping n false, .elect]

end Trio

/-- The write reaches node 2, then node 1 goes down. -/
def toHolder : List (Happening trio) :=
  Trio.write 97 1 ++ [.network (Trio.deliver 0), .network (.answer 0 5),
    .network Trio.finish, .reply 0] ++ Trio.down 1

theorem toHolder_found :
    .answered 1 (.set [97] [1]) true ∈ Trio.deployed.seen trio toHolder ∧
    (Trio.deployed.run trio toHolder).gateway.leaderId = 2 ∧
    (Trio.deployed.run trio toHolder).get trio id (fun _ => .quiet (0 : Nat)) [97]
      = some (.found [1]) := by
  have hled : Trio.deployed.gateway.Led [1, 2, 3] := ⟨rfl, by decide +kernel⟩
  have hevents : Trio.deployed.events trio toHolder
      = [Trio.set 1 97 1, Trio.deliver 0, .answer 0 5, Trio.finish] := rfl
  refine ⟨by decide +kernel, by decide +kernel, (get_after_failover_iff Trio.reliable
    ⟨rfl, rfl, rfl⟩ hled (fun n hn => ⟨{}, Trio.opened_ok n ?_⟩) ?_ _ (by decide) (by decide)
    [1]).mpr (by decide +kernel)⟩
  · revert n
    decide +kernel
  · rw [hevents]
    exact ⟨Trio.orderly_set (by decide +kernel), Trio.orderly_deliver (by decide +kernel),
      trivial, Trio.orderly_finish (by decide +kernel), trivial⟩

/-- Node 2 is down while the write is acknowledged by node 3, and comes
back. Then node 1 goes down, and node 2 has the lowest id. -/
def toMisser : List (Happening trio) :=
  Trio.down 2 ++ Trio.write 97 1 ++ [.network (.lose 0), .network (Trio.deliver 0),
    .network (.answer 0 5), .network Trio.finishRefused, .reply 0] ++
    [.connect 2 true, .ping 2 true] ++ Trio.down 1

/-- **An acknowledged write is lost**, with one node down at a time. -/
theorem failover_loses :
    Trio.deployed.seen trio toMisser
      = [.issued (.set [97] [1]), .answered 1 (.set [97] [1]) true] ∧
    (Trio.deployed.run trio toMisser).gateway.leaderId = 2 ∧
    ((Trio.deployed.run trio toMisser).gateway.nodes 2).healthy = true ∧
    (Trio.deployed.run trio toMisser).get trio id (fun _ => .quiet (0 : Nat)) [97]
      = some (.notFound (some (textBytes "key not found"))) := by
  decide +kernel

end VaultKV
