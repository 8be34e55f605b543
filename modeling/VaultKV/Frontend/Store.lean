import VaultKV.Lib.Trace

/-!
# Frontend — the cluster store (`store.ts`)

The page's view of the cluster: the nodes as the last update delivered them,
and the ids that the user took down. `killNode` and `restartNode` are
OPTIMISTIC: they change the store, send a request and wait; when the request
fails they put the store back to the SNAPSHOT they took before the change.
JavaScript runs one call from one await to the next, so a run of the page is
a list of events, each a call up to its await, a response, or an update.

A snapshot is of the whole store. Between the change and the response other
calls and updates come in, and a failed call takes them back as well. What a
failed call may meet for the store to come out right is `FailsAlone`. The
fields of a node that no action reads or writes are of any type `ι`.
-/

namespace VaultKV.Frontend

open Lib

/-! ## The store -/

/-- `NodeMeta`. -/
structure NodeMeta (ι : Type) where
  nodeId : Int
  healthy : Bool
  isLeader : Bool
  info : ι
  deriving DecidableEq, Repr

/-- The fields of `ClusterState` that the actions below write. -/
structure ClusterState (ι : Type) where
  nodes : List (NodeMeta ι)
  forcedDownNodeIds : List Int := []
  deriving DecidableEq, Repr

variable {ι : Type}

def NodeMeta.down (n : NodeMeta ι) : NodeMeta ι := { n with healthy := false, isLeader := false }

/-- `applyForcedDown`. -/
def applyForcedDown (nodes : List (NodeMeta ι)) (forcedDownNodeIds : List Int) :
    List (NodeMeta ι) :=
  if forcedDownNodeIds.length = 0 then nodes
  else nodes.map fun n => if n.nodeId ∈ forcedDownNodeIds then n.down else n

/-- `setNodes`. -/
def ClusterState.setNodes (nodes : List (NodeMeta ι)) (s : ClusterState ι) : ClusterState ι :=
  { s with nodes := applyForcedDown nodes s.forcedDownNodeIds }

inductive NodeAction where
  | kill
  | restart
  deriving DecidableEq, Repr

/-- The change that `killNode` makes before its request. -/
def ClusterState.killNode (id : Int) (s : ClusterState ι) : ClusterState ι where
  forcedDownNodeIds :=
    if id ∈ s.forcedDownNodeIds then s.forcedDownNodeIds else s.forcedDownNodeIds ++ [id]
  nodes := s.nodes.map fun n => if n.nodeId = id then n.down else n

/-- The change that `restartNode` makes before its request. -/
def ClusterState.restartNode (id : Int) (s : ClusterState ι) : ClusterState ι where
  forcedDownNodeIds := s.forcedDownNodeIds.filter (· ≠ id)
  nodes := s.nodes.map fun n => if n.nodeId = id then { n with healthy := true } else n

def ClusterState.apply (s : ClusterState ι) (id : Int) : NodeAction → ClusterState ι
  | .kill => s.killNode id
  | .restart => s.restartNode id

/-! ## What a request comes back with -/

/-- `toLowerCase`, as far as it can give an ASCII letter: besides the capitals
those are the Kelvin sign and the dotted capital I. -/
def lowerChar (c : Char) : List Char :=
  if c.toNat = 0x212A then ['k']
  else if c.toNat = 0x130 then ['i', Char.ofNat 0x307]
  else [c.toLower]

def includes (text : List Char) (word : String) : Bool := decide (word.toList <:+: text)

/-- `shouldUseClientSimulation`. -/
def shouldUseClientSimulation (detail : String) : Bool :=
  let normalized := detail.toList.flatMap lowerChar
  includes normalized "container not found" ||
    includes normalized "docker" ||
    includes normalized "permission denied" ||
    includes normalized "network error" ||
    includes normalized "connection refused"

/-- The end of the awaits: a response with the fields of its body (none when
it has no JSON), or something thrown, which may be an `Error`. -/
inductive Response where
  | answered (status : Nat) (ok simulated : Bool) (detail : Option String)
  | thrown (message : Option String)
  deriving DecidableEq, Repr

structure NodeActionResult where
  ok : Bool
  detail : String
  simulated : Option Bool
  deriving DecidableEq, Repr

/-- The texts in which `killNode` and `restartNode` differ. -/
structure Texts where
  applied : String
  failed : String
  thrown : String
  mode : String

def NodeAction.texts : NodeAction → Texts
  | .kill =>
      { applied := "node kill applied"
        failed := "kill failed (HTTP "
        thrown := "network error during kill"
        mode := "; using client simulated node-down mode" }
  | .restart =>
      { applied := "node restart applied"
        failed := "restart failed (HTTP "
        thrown := "network error during restart"
        mode := "; using client simulated node-recover mode" }

/-- The rest of `killNode` and `restartNode` after their awaits: what they
return. -/
def NodeAction.result (a : NodeAction) : Response → NodeActionResult
  | .answered status backendOk backendSimulated bodyDetail =>
      let detail := bodyDetail.getD
        (if backendOk then a.texts.applied else a.texts.failed ++ toString status ++ ")")
      let clientSimulated :=
        !backendOk && !backendSimulated && shouldUseClientSimulation detail
      { ok := backendOk || backendSimulated || clientSimulated
        detail := if clientSimulated then detail ++ a.texts.mode else detail
        simulated := if backendSimulated || clientSimulated then some true else none }
  | .thrown message =>
      let detail := message.getD a.texts.thrown
      let clientSimulated := shouldUseClientSimulation detail
      { ok := clientSimulated
        detail := if clientSimulated then detail ++ a.texts.mode else detail
        simulated := if clientSimulated then some true else none }

/-! ## The page -/

/-- A call at its await, with the store it found. -/
structure Flight (ι : Type) where
  action : NodeAction
  id : Int
  previous : ClusterState ι
  deriving DecidableEq, Repr

/-- The store and the calls at their awaits; and, to say what should have
come of a run, the last successful action on each id, the ids acted upon and
the last update. -/
structure Page (ι : Type) where
  store : ClusterState ι
  flights : List (Flight ι) := []
  lastOk : Int → Option NodeAction := fun _ => none
  acted : List Int := []
  delivered : List (NodeMeta ι)

inductive PageEvent (ι : Type) where
  | setNodes (nodes : List (NodeMeta ι))
  | call (action : NodeAction) (id : Int)
  /-- The response to the call at place `i` among those that wait. -/
  | settle (i : Nat) (response : Response)

namespace Page

def opened (nodes : List (NodeMeta ι)) : Page ι :=
  { store := { nodes := nodes }, delivered := nodes }

/-- A call succeeds: it leaves the store as it is. -/
def succeed (i : Nat) (f : Flight ι) (p : Page ι) : Page ι :=
  { p with flights := p.flights.eraseIdx i
           lastOk := Function.update p.lastOk f.id (some f.action) }

/-- A call fails: it puts back the store it found. -/
def fail (i : Nat) (f : Flight ι) (p : Page ι) : Page ι :=
  { p with flights := p.flights.eraseIdx i
           store := { nodes := f.previous.nodes
                      forcedDownNodeIds := f.previous.forcedDownNodeIds } }

def step : PageEvent ι → Page ι → Page ι
  | .setNodes nodes, p => { p with store := p.store.setNodes nodes, delivered := nodes }
  | .call a id, p =>
      { p with store := p.store.apply id a
               flights := ⟨a, id, p.store⟩ :: p.flights
               acted := id :: p.acted }
  | .settle i response, p =>
      match p.flights[i]? with
      | none => p
      | some f => if (f.action.result response).ok then p.succeed i f else p.fail i f

/-- The page after a run. -/
def run (nodes : List (NodeMeta ι)) (evs : List (PageEvent ι)) : Page ι :=
  runAlong step evs (opened nodes)

/-- The nodes that no call has acted upon, of a list of nodes. -/
def untouched (p : Page ι) (nodes : List (NodeMeta ι)) : List (NodeMeta ι) :=
  nodes.filter fun n => n.nodeId ∉ p.acted

/-- **The store came out right**: forced down are the ids whose last
successful action was a kill, and the nodes not acted upon are those that
the last update delivered. -/
structure Settled (p : Page ι) : Prop where
  forced : ∀ id, id ∈ p.store.forcedDownNodeIds ↔ p.lastOk id = some .kill
  nodes : p.untouched p.store.nodes = p.untouched p.delivered

/-- Calls that wait at the same time are for different ids. -/
def Apart : PageEvent ι → Page ι → Prop
  | .call _ id, p => ∀ f ∈ p.flights, f.id ≠ id
  | _, _ => True

/-- The store is as the call found it, as far as others go: every OTHER id
is forced down now exactly if it was then, and the nodes not acted upon are
as they were. -/
def Undisturbed (f : Flight ι) (p : Page ι) : Prop :=
  (∀ id ∈ f.previous.forcedDownNodeIds ++ p.store.forcedDownNodeIds, id ≠ f.id →
    (id ∈ f.previous.forcedDownNodeIds ↔ id ∈ p.store.forcedDownNodeIds)) ∧
  p.untouched f.previous.nodes = p.untouched p.store.nodes

/-- A call that fails was undisturbed. -/
def FailsAlone : PageEvent ι → Page ι → Prop
  | .settle i response, p =>
      ∀ f ∈ p.flights[i]?, (f.action.result response).ok = false → Undisturbed f p
  | _, _ => True

end Page

/-! ## What the actions do to the store -/

/-- **An action** decides its own id's membership and no other's. -/
theorem ClusterState.mem_apply (s : ClusterState ι) (id k : Int) (a : NodeAction) :
    k ∈ (s.apply id a).forcedDownNodeIds ↔
      if k = id then a = .kill else k ∈ s.forcedDownNodeIds := by
  cases a with
  | kill =>
      show k ∈ (if id ∈ s.forcedDownNodeIds then _ else _) ↔ _
      by_cases hmem : id ∈ s.forcedDownNodeIds
      · rw [if_pos hmem]
        by_cases hk : k = id
        · simp [hk, hmem]
        · simp [hk]
      · rw [if_neg hmem]
        by_cases hk : k = id <;> simp [hk]
  | restart =>
      show k ∈ s.forcedDownNodeIds.filter (· ≠ id) ↔ _
      by_cases hk : k = id <;> simp [hk]

theorem applyForcedDown_eq (nodes : List (NodeMeta ι)) (forced : List Int) :
    applyForcedDown nodes forced
      = nodes.map fun n => if n.nodeId ∈ forced then n.down else n := by
  cases forced with
  | nil => simp [applyForcedDown]
  | cons id forced => rfl

namespace Page

variable {p : Page ι} {f g : Flight ι} {i : Nat}

/-- Changes made node by node, none of them to an id or to a node that no
call has acted upon. -/
theorem untouched_map {g : NodeMeta ι → NodeMeta ι} (hid : ∀ n, (g n).nodeId = n.nodeId)
    (hsame : ∀ n, n.nodeId ∉ p.acted → g n = n) (nodes : List (NodeMeta ι)) :
    p.untouched (nodes.map g) = p.untouched nodes := by
  unfold untouched
  induction nodes with
  | nil => rfl
  | cons n nodes ih =>
      rw [List.map_cons, List.filter_cons, List.filter_cons, hid, ih]
      by_cases hn : n.nodeId ∉ p.acted
      · rw [hsame n hn]
      · rw [if_neg (by simpa using hn), if_neg (by simpa using hn)]

/-- An update changes nothing for the nodes not acted upon when all ids that
are forced down were. -/
theorem untouched_applyForcedDown {forced : List Int} (h : ∀ id ∈ forced, id ∈ p.acted)
    (nodes : List (NodeMeta ι)) :
    p.untouched (applyForcedDown nodes forced) = p.untouched nodes := by
  rw [applyForcedDown_eq]
  refine untouched_map (fun n => ?_) (fun n hn => ?_) nodes
  · split <;> rfl
  · exact if_neg fun hforced => hn (h n.nodeId hforced)

/-- Nor does an action, for the nodes of other ids. -/
theorem untouched_apply {id : Int} (h : id ∈ p.acted) (s : ClusterState ι) (a : NodeAction) :
    p.untouched (s.apply id a).nodes = p.untouched s.nodes := by
  have hother : ∀ n : NodeMeta ι, n.nodeId ∉ p.acted → n.nodeId ≠ id := by
    intro n hn heq
    exact hn (heq ▸ h)
  cases a with
  | kill =>
      refine untouched_map (fun n => ?_) (fun n hn => if_neg (hother n hn)) s.nodes
      split <;> rfl
  | restart =>
      refine untouched_map (fun n => ?_) (fun n hn => if_neg (hother n hn)) s.nodes
      split <;> rfl

/-- With one more id acted upon, fewer nodes are untouched. -/
theorem untouched_cons {q : Page ι} {id : Int} (hacted : q.acted = id :: p.acted)
    (nodes : List (NodeMeta ι)) :
    q.untouched nodes = (p.untouched nodes).filter fun n => n.nodeId ≠ id := by
  unfold untouched
  rw [List.filter_filter, hacted]
  refine List.filter_congr fun n _ => ?_
  simp

/-! ## What the store should hold at any time -/

/-- An id should be forced down: as the call that waits for it has it,
otherwise as the last successful action left it. -/
def Down (p : Page ι) (id : Int) : Prop :=
  (∃ f ∈ p.flights, f.id = id ∧ f.action = .kill) ∨
    (∀ f ∈ p.flights, f.id ≠ id) ∧ p.lastOk id = some .kill

/-- The store is right, calls that wait included. -/
structure Tracks (p : Page ι) : Prop where
  forced : ∀ id, id ∈ p.store.forcedDownNodeIds ↔ p.Down id
  nodes : p.untouched p.store.nodes = p.untouched p.delivered

/-- What the calls that wait know. -/
structure Sound (p : Page ι) : Prop where
  apart : (p.flights.map Flight.id).Nodup
  before : ∀ f ∈ p.flights, (f.id ∈ f.previous.forcedDownNodeIds ↔ p.lastOk f.id = some .kill)
  flying : ∀ f ∈ p.flights, f.id ∈ p.acted
  landed : ∀ id a, p.lastOk id = some a → id ∈ p.acted

theorem down_idle {id : Int} (h : ∀ f ∈ p.flights, f.id ≠ id) :
    p.Down id ↔ p.lastOk id = some .kill := by
  constructor
  · rintro (⟨f, hf, hid, _⟩ | ⟨_, hok⟩)
    · exact absurd hid (h f hf)
    · exact hok
  · intro hok
    exact Or.inr ⟨h, hok⟩

theorem Sound.down_flying (h : p.Sound) (hf : f ∈ p.flights) :
    p.Down f.id ↔ f.action = .kill := by
  constructor
  · rintro (⟨g, hg, hid, hkill⟩ | ⟨hnone, _⟩)
    · rwa [List.inj_on_of_nodup_map h.apart hg hf hid] at hkill
    · exact absurd rfl (hnone f hf)
  · intro hkill
    exact Or.inl ⟨f, hf, rfl, hkill⟩

/-- An id that has the same calls waiting and the same past. -/
theorem down_congr {q : Page ι} {id : Int}
    (hflights : ∀ g : Flight ι, g.id = id → (g ∈ q.flights ↔ g ∈ p.flights))
    (hok : q.lastOk id = p.lastOk id) : q.Down id ↔ p.Down id := by
  unfold Down
  rw [hok]
  refine or_congr ?_ (and_congr ?_ Iff.rfl)
  · constructor
    · rintro ⟨g, hg, hid, hkill⟩
      exact ⟨g, (hflights g hid).mp hg, hid, hkill⟩
    · rintro ⟨g, hg, hid, hkill⟩
      exact ⟨g, (hflights g hid).mpr hg, hid, hkill⟩
  · constructor
    · intro hnone g hg hid
      exact hnone g ((hflights g hid).mpr hg) hid
    · intro hnone g hg hid
      exact hnone g ((hflights g hid).mp hg) hid

theorem Sound.down_acted (h : p.Sound) {id : Int} (hdown : p.Down id) : id ∈ p.acted := by
  rcases hdown with ⟨f, hf, rfl, _⟩ | ⟨_, hok⟩
  · exact h.flying f hf
  · exact h.landed id .kill hok

/-- **When a call is over** the calls that still wait are those for other
ids. -/
theorem Sound.mem_eraseIdx (h : p.Sound) (hf : p.flights[i]? = some f) :
    g ∈ p.flights.eraseIdx i ↔ g ∈ p.flights ∧ g.id ≠ f.id := by
  rw [List.mem_eraseIdx_iff_getElem?]
  constructor
  · rintro ⟨j, hne, hj⟩
    -- two places with one id would be one place
    refine ⟨List.mem_of_getElem? hj, fun hid => hne ?_⟩
    have hlt : j < (p.flights.map Flight.id).length := by
      rw [List.length_map]
      exact (List.getElem?_eq_some_iff.mp hj).1
    refine (List.getElem?_inj hlt h.apart).mp ?_
    rw [List.getElem?_map, List.getElem?_map, hj, hf]
    exact congrArg some hid
  · rintro ⟨hg, hid⟩
    obtain ⟨j, hj⟩ := List.mem_iff_getElem?.mp hg
    refine ⟨j, ?_, hj⟩
    rintro rfl
    rw [hf] at hj
    cases hj
    exact hid rfl

/-! ## One event -/

theorem Sound.setNodes (h : p.Sound) (nodes : List (NodeMeta ι)) :
    (step (.setNodes nodes) p).Sound := ⟨h.apart, h.before, h.flying, h.landed⟩

/-- A call that starts finds its own id as the last successful action left
it. -/
theorem Sound.call (h : p.Sound) (ht : p.Tracks) {a : NodeAction} {id : Int}
    (hidle : ∀ f ∈ p.flights, f.id ≠ id) : (step (.call a id) p).Sound where
  apart := by
    refine List.nodup_cons.mpr ⟨?_, h.apart⟩
    rintro hmem
    obtain ⟨f, hf, hid⟩ := List.mem_map.mp hmem
    exact hidle f hf hid
  before := by
    intro f hf
    rcases List.mem_cons.mp hf with rfl | hf
    · -- its snapshot is the store, which is right about an id that no call waits for
      exact (ht.forced id).trans (down_idle hidle)
    · exact h.before f hf
  flying := by
    intro f hf
    rcases List.mem_cons.mp hf with rfl | hf
    · exact List.mem_cons_self
    · exact List.mem_cons_of_mem _ (h.flying f hf)
  landed := by
    intro k b hok
    exact List.mem_cons_of_mem _ (h.landed k b hok)

theorem Sound.fail (h : p.Sound) (hf : p.flights[i]? = some f) : (p.fail i f).Sound where
  apart := h.apart.sublist ((List.eraseIdx_sublist p.flights i).map _)
  before := by
    intro g hg
    exact h.before g ((h.mem_eraseIdx hf).mp hg).1
  flying := by
    intro g hg
    exact h.flying g ((h.mem_eraseIdx hf).mp hg).1
  landed := h.landed

theorem Sound.succeed (h : p.Sound) (hf : p.flights[i]? = some f) : (p.succeed i f).Sound where
  apart := (h.fail hf).apart
  before := by
    intro g hg
    have hne : g.id ≠ f.id := ((h.mem_eraseIdx hf).mp hg).2
    show _ ↔ Function.update p.lastOk f.id (some f.action) g.id = some .kill
    rw [Function.update_of_ne hne]
    exact (h.fail hf).before g hg
  flying := (h.fail hf).flying
  landed := by
    intro id a hok
    change Function.update p.lastOk f.id (some f.action) id = some a at hok
    by_cases hid : id = f.id
    · exact hid ▸ h.flying f (List.mem_of_getElem? hf)
    · rw [Function.update_of_ne hid] at hok
      exact h.landed id a hok

theorem Tracks.setNodes (ht : p.Tracks) (h : p.Sound) (nodes : List (NodeMeta ι)) :
    (step (.setNodes nodes) p).Tracks where
  forced := ht.forced
  nodes := untouched_applyForcedDown (p := p)
    (fun id hid => h.down_acted ((ht.forced id).mp hid)) nodes

theorem Tracks.call (ht : p.Tracks) (h : p.Sound) {a : NodeAction} {id : Int}
    (hidle : ∀ f ∈ p.flights, f.id ≠ id) : (step (.call a id) p).Tracks where
  forced := by
    intro k
    show k ∈ (p.store.apply id a).forcedDownNodeIds ↔ _
    rw [ClusterState.mem_apply]
    by_cases hk : k = id
    · rw [if_pos hk, hk]
      exact ((h.call ht hidle).down_flying List.mem_cons_self).symm
    · rw [if_neg hk, ht.forced k]
      symm
      refine down_congr (fun g hg => ?_) rfl
      show g ∈ _ :: p.flights ↔ _
      rw [List.mem_cons, or_iff_right]
      rintro rfl
      exact hk hg.symm
  nodes := by
    have hacted : (step (.call a id) p).acted = id :: p.acted := rfl
    have happly : (step (.call a id) p).untouched (p.store.apply id a).nodes
        = (step (.call a id) p).untouched p.store.nodes :=
      untouched_apply List.mem_cons_self p.store a
    show (step (.call a id) p).untouched (p.store.apply id a).nodes
      = (step (.call a id) p).untouched p.delivered
    rw [happly, untouched_cons hacted, untouched_cons hacted, ht.nodes]

/-- The ids of other calls and of no call do not notice the end of one. -/
theorem Sound.down_fail (h : p.Sound) (hf : p.flights[i]? = some f) {id : Int}
    (hne : id ≠ f.id) : (p.fail i f).Down id ↔ p.Down id := by
  refine down_congr (fun g hg => ?_) rfl
  refine (h.mem_eraseIdx hf).trans (and_iff_left ?_)
  rw [hg]
  exact hne

theorem Tracks.succeed (ht : p.Tracks) (h : p.Sound) (hf : p.flights[i]? = some f) :
    (p.succeed i f).Tracks where
  forced := by
    intro id
    refine (ht.forced id).trans ?_
    by_cases hid : id = f.id
    · -- the call's own id: what it waited for is now what succeeded last
      have hidle : ∀ g ∈ (p.succeed i f).flights, g.id ≠ f.id :=
        fun g hg => ((h.mem_eraseIdx hf).mp hg).2
      rw [hid, h.down_flying (List.mem_of_getElem? hf), down_idle hidle]
      show _ ↔ Function.update p.lastOk f.id (some f.action) f.id = some .kill
      rw [Function.update_self, Option.some.injEq]
    · have hsame : (p.succeed i f).Down id ↔ (p.fail i f).Down id :=
        down_congr (fun _ _ => Iff.rfl) (Function.update_of_ne hid _ _)
      rw [hsame, h.down_fail hf hid]
  nodes := ht.nodes

/-- **A failure** leaves the store right exactly when the call was
undisturbed: its own id is back where it was in any case. -/
theorem Tracks.fail_iff (ht : p.Tracks) (h : p.Sound) (hf : p.flights[i]? = some f) :
    (p.fail i f).Tracks ↔ Undisturbed f p := by
  have hmem : f ∈ p.flights := List.mem_of_getElem? hf
  have hother : ∀ id, id ≠ f.id →
      ((p.fail i f).Down id ↔ id ∈ p.store.forcedDownNodeIds) := fun id hne =>
    (h.down_fail hf hne).trans (ht.forced id).symm
  constructor
  · intro hfail
    refine ⟨fun id _ hne => (hfail.forced id).trans (hother id hne), ?_⟩
    exact hfail.nodes.trans ht.nodes.symm
  · rintro ⟨hforced, hnodes⟩
    refine ⟨fun id => ?_, hnodes.trans ht.nodes⟩
    by_cases hid : id = f.id
    · -- the snapshot has the call's own id as it was before the call
      have hidle : ∀ g ∈ (p.fail i f).flights, g.id ≠ f.id :=
        fun g hg => ((h.mem_eraseIdx hf).mp hg).2
      rw [hid, down_idle hidle]
      exact h.before f hmem
    · rw [hother id hid]
      constructor
      · intro hprev
        exact (hforced id (List.mem_append_left _ hprev) hid).mp hprev
      · intro hnow
        exact (hforced id (List.mem_append_right _ hnow) hid).mpr hnow

/-- **One event** keeps the store right exactly when it is no failure of a
call that was disturbed. -/
theorem tracks_step_iff (e : PageEvent ι) (p : Page ι) (h : p.Sound ∧ p.Tracks)
    (hapart : Apart e p) : ((step e p).Sound ∧ (step e p).Tracks) ↔ FailsAlone e p := by
  obtain ⟨hs, ht⟩ := h
  cases e with
  | setNodes nodes => exact iff_of_true ⟨hs.setNodes nodes, ht.setNodes hs nodes⟩ trivial
  | call a id => exact iff_of_true ⟨hs.call ht hapart, ht.call hs hapart⟩ trivial
  | settle i response =>
      rw [step, FailsAlone]
      cases hf : p.flights[i]? with
      | none => exact iff_of_true ⟨hs, ht⟩ fun f hmem => by cases hmem
      | some f =>
          simp only [Option.mem_some_iff, forall_eq']
          cases hok : (f.action.result response).ok with
          | true => simpa using ⟨hs.succeed hf, ht.succeed hs hf⟩
          | false => simpa using (and_iff_right (hs.fail hf)).trans (ht.fail_iff hs hf)

/-! ## Runs -/

theorem sound_opened (nodes : List (NodeMeta ι)) : (opened nodes).Sound where
  apart := List.nodup_nil
  before := by
    intro f hf
    cases hf
  flying := by
    intro f hf
    cases hf
  landed := by
    intro id a hok
    cases hok

theorem tracks_opened (nodes : List (NodeMeta ι)) : (opened nodes).Tracks where
  forced := by
    intro id
    refine iff_of_false List.not_mem_nil ?_
    rw [down_idle (fun f hf => absurd hf List.not_mem_nil)]
    intro hok
    cases hok
  nodes := rfl

/-- **At every moment of a run** the store is right, exactly when every call
that fails was undisturbed. -/
theorem always_tracks_iff (nodes : List (NodeMeta ι)) {evs : List (PageEvent ι)}
    (hapart : Along step Apart evs (opened nodes)) :
    (∀ done, done <+: evs → (run nodes done).Sound ∧ (run nodes done).Tracks) ↔
      Along step FailsAlone evs (opened nodes) :=
  always_iff_along_within (I := fun p : Page ι => p.Sound ∧ p.Tracks) tracks_step_iff evs
    ⟨sound_opened nodes, tracks_opened nodes⟩ hapart

/-- When no call waits, a store that is right has come out right. -/
theorem Tracks.settled (ht : p.Tracks) (hrest : p.flights = []) : p.Settled where
  forced := by
    intro id
    refine (ht.forced id).trans (down_idle fun f hf => ?_)
    rw [hrest] at hf
    cases hf
  nodes := ht.nodes

/-- **A failed kill or restart undoes only itself**, when nothing has
disturbed it. For every run of the page in which calls that wait at the same
time are for different ids: if every call that fails was undisturbed, the
store has come out right whenever all calls have completed. -/
theorem undisturbed_failures_settle (nodes : List (NodeMeta ι)) (evs : List (PageEvent ι))
    (hapart : Along step Apart evs (opened nodes))
    (halone : Along step FailsAlone evs (opened nodes)) :
    ∀ done, done <+: evs → (run nodes done).flights = [] → (run nodes done).Settled := by
  intro done hdone hrest
  exact ((always_tracks_iff nodes hapart).mpr halone done hdone).2.settled hrest

instance Apart.decidable : (e : PageEvent ι) → (p : Page ι) → Decidable (Apart e p)
  | .call _ id, p => inferInstanceAs (Decidable (∀ f ∈ p.flights, f.id ≠ id))
  | .setNodes _, _ => isTrue trivial
  | .settle _ _, _ => isTrue trivial

instance Undisturbed.decidable [DecidableEq ι] (f : Flight ι) (p : Page ι) :
    Decidable (Undisturbed f p) := inferInstanceAs (Decidable (_ ∧ _))

instance FailsAlone.decidable [DecidableEq ι] :
    (e : PageEvent ι) → (p : Page ι) → Decidable (FailsAlone e p)
  | .settle i response, p =>
      inferInstanceAs (Decidable (∀ f ∈ p.flights[i]?, (f.action.result response).ok = false →
        Undisturbed f p))
  | .setNodes _, _ => isTrue trivial
  | .call _ _, _ => isTrue trivial

end Page

/-- The rest of a node's fields. -/
structure NodeInfo where
  host : String
  port : Nat
  opsSet : Nat
  opsGet : Nat
  lagMs : Nat
  latencyUs : Nat
  keyCount : Nat
  deriving DecidableEq, Repr

/-- The nodes that the store starts with. -/
def initialNodes : List (NodeMeta NodeInfo) :=
  [⟨1, true, true, ⟨"vaultkv-node1", 7379, 0, 0, 0, 120, 0⟩⟩,
   ⟨2, true, false, ⟨"vaultkv-node2", 7380, 0, 0, 0, 145, 0⟩⟩,
   ⟨3, true, false, ⟨"vaultkv-node3", 7381, 0, 0, 0, 160, 0⟩⟩]

/-- An update in which node 3 holds a key. -/
def newerNodes : List (NodeMeta NodeInfo) :=
  [⟨1, true, true, ⟨"vaultkv-node1", 7379, 1, 0, 0, 120, 1⟩⟩,
   ⟨2, true, false, ⟨"vaultkv-node2", 7380, 0, 0, 3, 145, 1⟩⟩,
   ⟨3, true, false, ⟨"vaultkv-node3", 7381, 0, 0, 2, 160, 1⟩⟩]

def accepted : Response := .answered 200 true false none

def refused : Response := .answered 500 false false none

namespace Page

/-- Node 1 is killed; meanwhile the kill of node 2 fails, then the nodes are
updated. -/
def nestedFailure : List (PageEvent NodeInfo) :=
  [.call .kill 1, .call .kill 2, .settle 0 refused, .setNodes newerNodes, .settle 0 accepted]

theorem nestedFailure_settles :
    (run initialNodes nestedFailure).flights = [] ∧ (run initialNodes nestedFailure).Settled := by
  have hapart : Along step Apart nestedFailure (opened initialNodes) := by decide +kernel
  have halone : Along step FailsAlone nestedFailure (opened initialNodes) := by decide +kernel
  have hrest : (run initialNodes nestedFailure).flights = [] := by decide +kernel
  exact ⟨hrest, undisturbed_failures_settle initialNodes nestedFailure hapart halone
    nestedFailure (List.prefix_refl _) hrest⟩

/-- The kill of node 1 is on its way while node 2 is killed and the nodes
are updated; then it fails. -/
def lateFailure : List (PageEvent NodeInfo) :=
  [.call .kill 1, .call .kill 2, .settle 0 accepted, .setNodes newerNodes, .settle 0 refused]

/-- **The failed call takes back the others**: node 2, whose kill succeeded,
is no longer forced down, and node 3 is as it was before the update. -/
theorem snapshot_undoes_others :
    Along step Apart lateFailure (opened initialNodes) ∧
    (run initialNodes lateFailure).flights = [] ∧
    (run initialNodes lateFailure).lastOk 2 = some .kill ∧
    2 ∉ (run initialNodes lateFailure).store.forcedDownNodeIds ∧
    3 ∉ (run initialNodes lateFailure).acted ∧
    (run initialNodes lateFailure).store.nodes = initialNodes ∧
    (run initialNodes lateFailure).delivered = newerNodes ∧
    ¬ (run initialNodes lateFailure).Settled := by
  have hkill : (run initialNodes lateFailure).lastOk 2 = some .kill := by decide +kernel
  have hup : 2 ∉ (run initialNodes lateFailure).store.forcedDownNodeIds := by decide +kernel
  refine ⟨by decide +kernel, by decide +kernel, hkill, hup, by decide +kernel,
    by decide +kernel, by decide +kernel, ?_⟩
  intro hsettled
  exact hup ((hsettled.forced 2).mpr hkill)

end Page

/-! ## Forced-down nodes are shown as down

Six updates write the two fields, and two of them put back what another
moment had. A snapshot is of ONE moment, so it shows down what it has forced
down as the store did then. -/

/-- Every node that is forced down is shown as down. -/
def ClusterState.ShownDown (s : ClusterState ι) : Prop :=
  ∀ n ∈ s.nodes, n.nodeId ∈ s.forcedDownNodeIds → n.healthy = false ∧ n.isLeader = false

/-- An update shows down what is forced down, whatever it delivers. -/
theorem ClusterState.shownDown_setNodes (s : ClusterState ι) (nodes : List (NodeMeta ι)) :
    (s.setNodes nodes).ShownDown := by
  intro n hn hforced
  change n ∈ applyForcedDown nodes s.forcedDownNodeIds at hn
  change n.nodeId ∈ s.forcedDownNodeIds at hforced
  rw [applyForcedDown_eq] at hn
  obtain ⟨m, -, rfl⟩ := List.mem_map.mp hn
  by_cases hm : m.nodeId ∈ s.forcedDownNodeIds
  · rw [if_pos hm]
    exact ⟨rfl, rfl⟩
  · rw [if_neg hm] at hforced
    exact absurd hforced hm

/-- A kill shows its own nodes down and leaves the others as they are shown. -/
theorem ClusterState.ShownDown.killNode {s : ClusterState ι} (h : s.ShownDown) (id : Int) :
    (s.killNode id).ShownDown := by
  intro n hn hforced
  rw [show s.killNode id = s.apply id .kill from rfl, mem_apply] at hforced
  obtain ⟨m, hm, rfl⟩ := List.mem_map.mp hn
  by_cases hid : m.nodeId = id
  · rw [if_pos hid]
    exact ⟨rfl, rfl⟩
  · rw [if_neg hid] at hforced ⊢
    rw [if_neg hid] at hforced
    exact h m hm hforced

/-- A restart shows only nodes as healthy that it takes off the list. -/
theorem ClusterState.ShownDown.restartNode {s : ClusterState ι} (h : s.ShownDown) (id : Int) :
    (s.restartNode id).ShownDown := by
  intro n hn hforced
  rw [show s.restartNode id = s.apply id .restart from rfl, mem_apply] at hforced
  obtain ⟨m, hm, rfl⟩ := List.mem_map.mp hn
  by_cases hid : m.nodeId = id
  · rw [if_pos hid, if_pos hid] at hforced
    cases hforced
  · rw [if_neg hid] at hforced ⊢
    rw [if_neg hid] at hforced
    exact h m hm hforced

namespace Page

/-- The store, and every snapshot that a call may still put back. -/
structure ShowsDown (p : Page ι) : Prop where
  store : p.store.ShownDown
  held : ∀ f ∈ p.flights, f.previous.ShownDown

variable {p : Page ι}

theorem ShowsDown.call (h : p.ShowsDown) (a : NodeAction) (id : Int) :
    (step (.call a id) p).ShowsDown where
  store := by
    cases a with
    | kill => exact h.store.killNode id
    | restart => exact h.store.restartNode id
  held := by
    intro f hf
    rcases List.mem_cons.mp hf with rfl | hf
    · exact h.store
    · exact h.held f hf

theorem ShowsDown.settle (h : p.ShowsDown) (i : Nat) (response : Response) :
    (step (.settle i response) p).ShowsDown := by
  have hheld : ∀ f ∈ p.flights.eraseIdx i, f.previous.ShownDown := fun f hf =>
    h.held f (List.mem_of_mem_eraseIdx hf)
  rw [step]
  cases hf : p.flights[i]? with
  | none => exact h
  | some f =>
      dsimp only
      split
      · exact ⟨h.store, hheld⟩
      · exact ⟨h.held f (List.mem_of_getElem? hf), hheld⟩

theorem ShowsDown.step (h : p.ShowsDown) (e : PageEvent ι) : (step e p).ShowsDown := by
  cases e with
  | setNodes nodes => exact ⟨p.store.shownDown_setNodes nodes, h.held⟩
  | call a id => exact h.call a id
  | settle i response => exact h.settle i response

/-- **Forced-down nodes are shown as down**, in every state of every run of
the page: updates, calls and responses in any order and any number, calls
for one id at the same time included. -/
theorem forced_down_shown_down (nodes : List (NodeMeta ι)) (evs : List (PageEvent ι)) :
    ∀ n ∈ (run nodes evs).store.nodes, n.nodeId ∈ (run nodes evs).store.forcedDownNodeIds →
      n.healthy = false ∧ n.isLeader = false := by
  have hopened : (opened nodes).ShowsDown := by
    refine ⟨fun n _ hforced => ?_, fun f hf => ?_⟩
    · cases hforced
    · cases hf
  exact (runAlong_keeps (I := ShowsDown) (fun e _ h => h.step e) evs hopened).store

/-- The failed kill of node 2 leaves node 1 down, through the update as well. -/
theorem nestedFailure_shown_down :
    1 ∈ (run initialNodes nestedFailure).store.forcedDownNodeIds ∧
      ∃ n ∈ (run initialNodes nestedFailure).store.nodes,
        n.nodeId = 1 ∧ n.healthy = false ∧ n.isLeader = false := by
  have hforced : 1 ∈ (run initialNodes nestedFailure).store.forcedDownNodeIds := by
    decide +kernel
  have hnode : ∃ n ∈ (run initialNodes nestedFailure).store.nodes, n.nodeId = 1 := by
    decide +kernel
  obtain ⟨n, hn, hid⟩ := hnode
  have hdown := forced_down_shown_down initialNodes nestedFailure n hn (by rwa [hid])
  exact ⟨hforced, n, hn, hid, hdown⟩

end Page

end VaultKV.Frontend
