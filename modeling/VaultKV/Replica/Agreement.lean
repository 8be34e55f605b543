import VaultKV.Engine.Refine
import VaultKV.Replica.Model

/-!
# Replica — when a follower answers as its leader

A node answers for a key what the last write on the key that it TOOK asks
for: as the node the client called, or as the peer that executed the frame.
The leader takes the writes it acknowledged, in the order of the calls. A
follower takes what is delivered to it, in the order of delivery, whatever
became of the call. So the two answer alike exactly when the last write
each of them took asks for the same, and nothing in the frames makes that
so: a late frame of an earlier write is taken over the later one.
-/

namespace VaultKV

open Lib

/-! ## What a node took -/

/-- The write, if its result is `Ok`. -/
def ClientWrite.taken (w : ClientWrite) : Res Nat → List ClientWrite
  | .ok _ => [w]
  | .error _ => []

theorem ClientWrite.mem_taken {w w' : ClientWrite} {res : Res Nat} (h : w' ∈ w.taken res) :
    w' = w ∧ ∃ n, res = .ok n := by
  cases res with
  | error err => cases h
  | ok n => exact ⟨List.mem_singleton.mp h, n, rfl⟩

def Note.taken (n : Nat) : Note → List ClientWrite
  | .returned _ m w res => if m = n then w.taken res else []
  | .executed m w res => if m = n then w.taken res else []
  | _ => []

/-- The writes a node took, oldest first. -/
def taken (n : Nat) (notes : List Note) : List ClientWrite := notes.flatMap (Note.taken n)

/-- What the last write on the key asks for. -/
def latest (k : Bytes) (ws : List ClientWrite) : Option Bytes :=
  (ws.reverse.find? fun w => decide (w.key = k)).bind ClientWrite.answer

theorem latest_append_one (k : Bytes) (ws : List ClientWrite) (w : ClientWrite) :
    latest k (ws ++ [w]) = if w.key = k then w.answer else latest k ws := by
  rw [latest, List.reverse_append, List.reverse_singleton, List.singleton_append,
    List.find?_cons]
  by_cases hk : w.key = k
  · rw [if_pos hk, decide_eq_true hk]; rfl
  · rw [if_neg hk, decide_eq_false hk]; rfl

theorem taken_append (n : Nat) (past more : List Note) :
    taken n (past ++ more) = taken n past ++ taken n more := List.flatMap_append

theorem taken_returned (n call : Nat) (w : ClientWrite) (res : Res Nat) :
    taken n [.returned call n w res] = w.taken res := by
  simp [taken, Note.taken]

theorem taken_returned_of_ne {n m : Nat} (h : m ≠ n) (call : Nat) (w : ClientWrite)
    (res : Res Nat) : taken n [.returned call m w res] = [] := by
  simp [taken, Note.taken, h]

theorem taken_executed (n : Nat) (w : ClientWrite) (res : Res Nat) :
    taken n [.executed n w res] = w.taken res := by
  simp [taken, Note.taken]

theorem taken_executed_of_ne {n m : Nat} (h : m ≠ n) (w : ClientWrite) (res : Res Nat) :
    taken n [.executed m w res] = [] := by
  simp [taken, Note.taken, h]

/-- A step of the map, for a write. -/
theorem accept_toOp {c : Cipher} (io : WriteIo c) (w : ClientWrite) (res : Res Nat)
    (ws : List ClientWrite) (k : Bytes) :
    accept (fun k => latest k ws) (w.toOp io, res) k = latest k (ws ++ w.taken res) := by
  cases res with
  | error err =>
      rw [ClientWrite.taken, List.append_nil]
      cases w <;> rfl
  | ok n =>
      rw [ClientWrite.taken, latest_append_one]
      have hupdate : accept (fun k => latest k ws) (w.toOp io, .ok n)
          = Function.update (fun k => latest k ws) w.key w.answer := by cases w <;> rfl
      rw [hupdate]
      by_cases hk : w.key = k
      · subst hk; rw [if_pos rfl, Function.update_self]
      · rw [if_neg hk, Function.update_of_ne (Ne.symm hk)]

/-! ## An engine that tells the writes it took -/

/-- The engine answers what the last of the writes on a key asks for; no
write has a value that the log refuses. -/
def Engine.Tells (cfg : Config) (ws : List ClientWrite) (e : Engine) : Prop :=
  (∃ s rs, e.Inv cfg s rs ∧ ∀ k, k ≠ [] → s.get k = latest k ws) ∧
    ∀ w ∈ ws, w.value.length < 2 ^ 32

/-- A logged write has a key, and a value that a frame can hold. -/
theorem Engine.logWrite_fits {cfg : Config} {io : WriteIo cfg.cipher} {w : ClientWrite}
    {e e' : Engine} {seq : Nat} (h : e.logWrite cfg io w.op w.key w.value = (.ok seq, e')) :
    w.value.length < 2 ^ 32 := by
  obtain ⟨-, -, wal, happ, -⟩ := logWrite_ok h
  unfold Wal.append at happ
  by_contra hbig
  have hlong : w.value.length > 2 ^ 32 - 1 := by omega
  rw [if_pos hlong] at happ
  split at happ
  · cases happ
  · split at happ <;> cases happ

/-- The flush at the end of a write, if there is one, compacts safely. -/
def Engine.SafeApply (cfg : Config) (io : FlushIo cfg.cipher) (w : ClientWrite) (seq : Nat)
    (e : Engine) : Prop :=
  match w with
  | .set key value =>
      let r := e.memtable.set key value seq
      r.2.memoryBudget ≤ r.2.approxMemory →
        ∀ e₁ ∈ Engine.flushPoint cfg io { e with memtable := r.2 }, e₁.SafePoint cfg
  | .delete _ => True

instance (cfg : Config) (io : FlushIo cfg.cipher) (w : ClientWrite) (seq : Nat) (e : Engine) :
    Decidable (e.SafeApply cfg io w seq) := by
  cases w
  · exact inferInstanceAs (Decidable (_ → _))
  · exact inferInstanceAs (Decidable True)

namespace Engine.Tells

variable {cfg : Config} {ws : List ClientWrite} {e : Engine}

theorem of_open {io : OpenIo} (hopen : (Engine.fresh cfg).open cfg io = (.ok 0, e)) :
    e.Tells cfg [] :=
  ⟨⟨_, _, inv_of_open hopen, fun _ _ => rfl⟩, fun _ hw => absurd hw List.not_mem_nil⟩

theorem answers_iff (h : e.Tells cfg ws) {k : Bytes} (hk : k ≠ []) (a : Option Bytes) :
    Answers (e.get cfg k) a ↔ latest k ws = a := by
  obtain ⟨⟨s, rs, hinv, hget⟩, -⟩ := h
  rw [hinv.answers_iff hk, hget k hk]

theorem latest_fits (h : e.Tells cfg ws) {k v : Bytes} (hlast : latest k ws = some v) :
    v.length < 2 ^ 32 := by
  obtain ⟨w, hfind, hanswer⟩ := Option.bind_eq_some_iff.mp hlast
  have hfits := h.2 w (List.mem_reverse.mp (List.mem_of_find?_eq_some hfind))
  cases w with
  | set key value => obtain rfl := Option.some.inj hanswer; exact hfits
  | delete key => cases hanswer

/-- **A write, executed in one piece.** -/
theorem write (hcfg : cfg.Reliable) (h : e.Tells cfg ws) {io : WriteIo cfg.cipher}
    {w : ClientWrite} (hclean : (w.toOp io).Clean) (hsafe : e.SafeStep cfg (w.toOp io)) :
    (e.step cfg (w.toOp io)).2.Tells cfg
      (ws ++ w.taken (e.step cfg (w.toOp io)).1) := by
  obtain ⟨⟨s, rs, hinv, hget⟩, hfits⟩ := h
  obtain ⟨s', rs', hinv', hstep⟩ := hinv.step hcfg hclean
  refine ⟨⟨s', rs', hinv', fun k hk => ?_⟩, fun w' hw' => ?_⟩
  · have hmap := hstep.mpr hsafe k hk
    have hbefore : accept s.get (w.toOp io, (e.step cfg (w.toOp io)).1) k
        = accept (fun k => latest k ws) (w.toOp io, (e.step cfg (w.toOp io)).1) k :=
      accept_congr (hget k hk) _
    rw [hmap, hbefore, accept_toOp]
  · rcases List.mem_append.mp hw' with hw' | hw'
    · exact hfits w' hw'
    · obtain ⟨rfl, n, hres⟩ := ClientWrite.mem_taken hw'
      rw [Engine.step_write] at hres
      rcases hlog : e.logWrite cfg io w'.op w'.key w'.value with ⟨res, e₁⟩
      rw [hlog] at hres
      cases res with
      | error err => cases hres
      | ok seq => exact Engine.logWrite_fits hlog

/-- Flush and compaction change no answer. -/
theorem upkeep (hcfg : cfg.Reliable) (h : e.Tells cfg ws) {op : Op cfg.cipher}
    (hop : op.write? = none) (hclean : op.Clean) (hsafe : e.SafeStep cfg op) :
    (e.step cfg op).2.Tells cfg ws := by
  obtain ⟨⟨s, rs, hinv, hget⟩, hfits⟩ := h
  obtain ⟨s', rs', hinv', hstep⟩ := hinv.step hcfg hclean
  refine ⟨⟨s', rs', hinv', fun k hk => ?_⟩, hfits⟩
  have hmap := hstep.mpr hsafe k hk
  rw [accept] at hmap
  simp only [hop] at hmap
  rw [hmap, hget k hk]

end Engine.Tells

/-- The engine has logged the write, and waits. -/
def Engine.Logging (cfg : Config) (ws : List ClientWrite) (w : ClientWrite) (seq : Nat)
    (e : Engine) : Prop :=
  ∃ (e₀ : Engine) (io₀ : WriteIo cfg.cipher), e₀.Tells cfg ws ∧
    e₀.logWrite cfg io₀ w.op w.key w.value = (.ok seq, e)

namespace Engine.Logging

variable {cfg : Config} {ws : List ClientWrite} {w : ClientWrite} {seq : Nat} {e : Engine}

/-- A logged record changes no answer. -/
theorem tells (hcfg : cfg.Reliable) (h : e.Logging cfg ws w seq) : e.Tells cfg ws := by
  obtain ⟨e₀, io₀, ⟨⟨s, rs, hinv, hget⟩, hfits⟩, hlog⟩ := h
  obtain ⟨-, hkey, wal, happ, rfl⟩ := logWrite_ok hlog
  exact ⟨⟨s, _, hinv.append hcfg.lawful hkey happ, hget⟩, hfits⟩

/-- **The end of a write that has waited**: together with its beginning it
is the write in one piece. -/
theorem apply (hcfg : cfg.Reliable) (h : e.Logging cfg ws w seq) {calls : List PeerCall}
    {n : Nat} (hrep : Engine.replicate cfg calls = .ok n) {io : FlushIo cfg.cipher}
    (hclean : io.Clean) (hsafe : e.SafeApply cfg io w seq) :
    (e.applyWrite cfg io w seq).2.Tells cfg
      (ws ++ w.taken (e.applyWrite cfg io w seq).1) := by
  obtain ⟨e₀, io₀, htells, hlog⟩ := h
  let whole : WriteIo cfg.cipher := { io₀ with flush := io, calls := calls }
  have hwhole : e₀.logWrite cfg whole w.op w.key w.value = (.ok seq, e) := hlog
  have hstep : e₀.step cfg (w.toOp whole) = e.applyWrite cfg io w seq := by
    rw [Engine.step_write, hwhole]
    have hcalls : Engine.replicate cfg whole.calls = .ok n := hrep
    simp only [hcalls]
    rfl
  rw [← hstep]
  refine htells.write hcfg ?_ ?_
  · cases w with
    | set key value => exact hclean
    | delete key => trivial
  · cases w with
    | delete key => intro e₁ he₁; cases he₁
    | set key value =>
        have hkey : key ≠ [] := (logWrite_ok hlog).2.1
        have hset := MemTable.set_of_ne_nil hkey value seq e.memtable
        have hcalls : Engine.replicate cfg whole.calls = .ok n := hrep
        have hwhole : e₀.logWrite cfg whole .kSet key value = (.ok seq, e) := hwhole
        intro e₁ he₁
        simp only [ClientWrite.toOp, Engine.compactPoint, hwhole, hcalls, hset] at he₁
        simp only [Engine.SafeApply, hset] at hsafe
        by_cases hfull : (e.memtable.put key ⟨value, seq, false⟩).memoryBudget
            ≤ (e.memtable.put key ⟨value, seq, false⟩).approxMemory
        · rw [if_pos hfull] at he₁
          exact hsafe hfull e₁ he₁
        · rw [if_neg hfull] at he₁
          cases he₁

end Engine.Logging

/-! ## Runs -/

/-- The calls that wait on node `n`. -/
def Net.pending (net : Net) (n : Nat) : List (ClientWrite × Nat) :=
  (net.waiting.filter fun x => decide (x.node = n)).map fun x => (x.write, x.seq)

/-- **Engines used one operation at a time**, without I/O failures and
restarts, and every compaction is safe. Frames and replies are lost,
delayed and reordered at will. -/
def Event.Orderly {sys : System} (net : Net) : Event sys → Prop
  | .start n io w => net.pending n = [] ∧ (Net.replicates sys n = false →
      (w.toOp io).Clean ∧ (net.nodes n).SafeStep (sys.cfg n) (w.toOp io))
  | .deliver i io => ∀ f ∈ net.frames[i]?, net.pending f.peer = [] ∧
      (f.write.toOp (io f.peer)).Clean ∧
      (net.nodes f.peer).SafeStep (sys.cfg f.peer) (f.write.toOp (io f.peer))
  | .finish i _ io => ∀ x ∈ net.waiting[i]?, (io x.node).Clean ∧
      (net.nodes x.node).SafeApply (sys.cfg x.node) (io x.node) x.write x.seq
  | .flush n io => net.pending n = [] ∧ io.Clean ∧
      (net.nodes n).SafeStep (sys.cfg n) (.flush io)
  | .compact n io => net.pending n = [] ∧ io.Clean ∧
      (net.nodes n).SafeStep (sys.cfg n) (.compact io)
  | .restart _ _ => False
  | _ => True

def Net.Orderly (sys : System) : List (Event sys) → Net → Prop
  | [], _ => True
  | ev :: evs, net => ev.Orderly net ∧ Net.Orderly sys evs (net.step sys ev).1

/-- The engine tells the writes it took, and may have logged one more. -/
def Engine.Serves (cfg : Config) (ws : List ClientWrite) (e : Engine) :
    List (ClientWrite × Nat) → Prop
  | [] => e.Tells cfg ws
  | [(w, seq)] => e.Logging cfg ws w seq
  | _ => False

theorem Engine.Serves.tells {cfg : Config} (hcfg : cfg.Reliable) {ws : List ClientWrite}
    {e : Engine} {pending : List (ClientWrite × Nat)} (h : e.Serves cfg ws pending) :
    e.Tells cfg ws := by
  match pending, h with
  | [], h => exact h
  | [(w, seq)], h => exact Engine.Logging.tells hcfg h

/-- At most one call waits. -/
theorem Engine.Serves.only {cfg : Config} {ws : List ClientWrite} {e : Engine}
    {xs ys : List (ClientWrite × Nat)} {p : ClientWrite × Nat}
    (h : e.Serves cfg ws (xs ++ p :: ys)) : xs = [] ∧ ys = [] ∧ e.Logging cfg ws p.1 p.2 := by
  match xs, ys, h with
  | [], [], h => exact ⟨rfl, rfl, h⟩
  | [], _ :: _, h => exact h.elim
  | [_], _, h => exact h.elim
  | _ :: _ :: _, _, h => exact h.elim

/-- Node `n` serves what it took. -/
structure Net.Told (sys : System) (n : Nat) (net : Net) (past : List Note) : Prop where
  frames : ∀ f ∈ net.frames, f.write.frame? = some f.frame
  serves : (net.nodes n).Serves (sys.cfg n) (taken n past) (net.pending n)

theorem getElem?_split {α : Type} {l : List α} {i : Nat} {x : α} (h : l[i]? = some x) :
    ∃ l₁ l₂, l = l₁ ++ x :: l₂ ∧ l.eraseIdx i = l₁ ++ l₂ := by
  obtain ⟨hi, rfl⟩ := List.getElem?_eq_some_iff.mp h
  refine ⟨l.take i, l.drop (i + 1), ?_, List.eraseIdx_eq_take_drop_succ l i⟩
  rw [List.getElem_cons_drop, List.take_append_drop]

namespace Net.Told

variable {sys : System} {n : Nat} {net : Net} {past : List Note}

/-- What another node does. -/
theorem frame (h : net.Told sys n past) {net' : Net} {more : List Note}
    (hframes : ∀ f ∈ net'.frames, f.write.frame? = some f.frame)
    (hnode : net'.nodes n = net.nodes n) (hpending : net'.pending n = net.pending n)
    (htaken : taken n more = []) : net'.Told sys n (past ++ more) := by
  refine ⟨hframes, ?_⟩
  rw [hnode, hpending, taken_append, htaken, List.append_nil]
  exact h.serves

/-- What the node itself does. -/
theorem own (h : net.Told sys n past) {net' : Net} {more : List Note}
    (hframes : ∀ f ∈ net'.frames, f ∈ net.frames) {e : Engine} {ws : List ClientWrite}
    (hnode : net'.nodes n = e) (hpending : net'.pending n = []) (htaken : taken n more = ws)
    (htells : e.Tells (sys.cfg n) (taken n past ++ ws)) : net'.Told sys n (past ++ more) := by
  refine ⟨fun f hf => h.frames f (hframes f hf), ?_⟩
  rw [hnode, hpending, taken_append, htaken]
  exact htells

theorem start_self (hcfg : (sys.cfg n).Reliable) (h : net.Told sys n past)
    {io : WriteIo (sys.cfg n).cipher} {w : ClientWrite}
    (hord : (Event.start n io w : Event sys).Orderly net) :
    (net.start sys n io w).1.Told sys n (past ++ (net.start sys n io w).2) := by
  obtain ⟨hfree, hsafe⟩ := hord
  have hself : (net.nodes n).Tells (sys.cfg n) (taken n past) := h.serves.tells hcfg
  have hstep := Engine.step_write (sys.cfg n) io w (net.nodes n)
  unfold Net.start
  rcases hlog : (net.nodes n).logWrite (sys.cfg n) io w.op w.key w.value with ⟨res, e⟩
  rw [hlog] at hstep
  cases res with
  | error err =>
      obtain rfl := logWrite_error hlog
      refine h.own (fun _ hf => hf) (Function.update_self ..) hfree (taken_returned ..) ?_
      rw [ClientWrite.taken, List.append_nil]
      exact hself
  | ok seq =>
      dsimp only
      by_cases hrep : Net.replicates sys n = true
      · -- the call waits: the record is in the log only
        rw [if_pos hrep]
        refine ⟨fun f hf => ?_, ?_⟩
        · rcases List.mem_append.mp hf with hf | hf
          · exact h.frames f hf
          · exact (mem_framesOf hf).2.2
        · have hpending : Net.pending
              { net.put n e with
                frames := net.frames ++ Net.framesOf sys n net.calls w
                waiting := net.waiting ++ [⟨net.calls, n, w, seq, []⟩]
                calls := net.calls + 1 } n = [(w, seq)] := by
            unfold Net.pending at hfree ⊢
            rw [List.filter_append, List.map_append, hfree]
            simp
          rw [hpending, List.append_nil]
          show Engine.Logging _ _ w seq (Function.update net.nodes n e n)
          rw [Function.update_self]
          exact ⟨net.nodes n, io, hself, hlog⟩
      · rw [if_neg hrep]
        have halone : Engine.replicate (sys.cfg n) io.calls = .ok 0 := if_neg hrep
        simp only [halone] at hstep
        obtain ⟨hclean, hsafe⟩ := hsafe (Bool.eq_false_iff.mpr hrep)
        have hnext := hself.write hcfg hclean hsafe
        rw [hstep] at hnext
        exact h.own (fun _ hf => hf) (Function.update_self ..) hfree (taken_returned ..) hnext

theorem start_other (h : net.Told sys n past) {m : Nat} (hmn : m ≠ n)
    (io : WriteIo (sys.cfg m).cipher) (w : ClientWrite) :
    (net.start sys m io w).1.Told sys n (past ++ (net.start sys m io w).2) := by
  unfold Net.start
  rcases (net.nodes m).logWrite (sys.cfg m) io w.op w.key w.value with ⟨res, e⟩
  cases res with
  | error err =>
      exact h.frame h.frames (Function.update_of_ne (Ne.symm hmn) ..) rfl
        (taken_returned_of_ne hmn ..)
  | ok seq =>
      dsimp only
      by_cases hrep : Net.replicates sys m = true
      · rw [if_pos hrep]
        refine h.frame (fun f hf => ?_) (Function.update_of_ne (Ne.symm hmn) ..) ?_
          rfl
        · rcases List.mem_append.mp hf with hf | hf
          · exact h.frames f hf
          · exact (mem_framesOf hf).2.2
        · unfold Net.pending
          rw [List.filter_append, List.map_append]
          simp [hmn]
      · rw [if_neg hrep]
        exact h.frame h.frames (Function.update_of_ne (Ne.symm hmn) ..) rfl
          (taken_returned_of_ne hmn ..)

theorem deliver (hcfg : (sys.cfg n).Reliable) (h : net.Told sys n past) {i : Nat}
    {io : ∀ m, WriteIo (sys.cfg m).cipher} (hord : (Event.deliver i io : Event sys).Orderly net)
    {f : InFlight} (hf : net.frames[i]? = some f) :
    (Net.deliver sys f (io f.peer) { net with frames := net.frames.eraseIdx i }).1.Told sys n
      (past ++ (Net.deliver sys f (io f.peer)
        { net with frames := net.frames.eraseIdx i }).2) := by
  obtain ⟨hfree, hclean, hsafe⟩ := hord f hf
  have hexec : ((net.nodes f.peer).handleFrame (sys.cfg f.peer) (io f.peer) f.frame).2
      = ((net.nodes f.peer).step (sys.cfg f.peer) (f.write.toOp (io f.peer))).2 := by
    rw [handleFrame_write (h.frames f (List.mem_of_getElem? hf))]
  have hrest : ∀ g ∈ net.frames.eraseIdx i, g ∈ net.frames :=
    fun g hg => List.mem_of_mem_eraseIdx hg
  by_cases hpn : f.peer = n
  · subst hpn
    have hnext := (h.serves.tells hcfg).write hcfg hclean hsafe
    exact h.own hrest (Function.update_self ..) hfree (taken_executed ..)
      (by rw [hexec]; exact hnext)
  · exact h.frame (fun g hg => h.frames g (hrest g hg))
      (Function.update_of_ne (Ne.symm hpn) ..) rfl (taken_executed_of_ne hpn ..)

/-- An ACK that comes in changes no engine and no call's write. -/
theorem answer (h : net.Told sys n past) (f : InFlight) (i doneAt : Nat) :
    (Net.take f doneAt { net with replies := net.replies.eraseIdx i }).1.Told sys n
      (past ++ (Net.take f doneAt { net with replies := net.replies.eraseIdx i }).2) := by
  unfold Net.take
  by_cases hack : f.frame.type = .ack
  · rw [if_pos hack]
    refine h.frame h.frames rfl ?_ rfl
    unfold Net.pending
    rw [List.filter_map, List.map_map]
    have hnode : ((fun x : Waiting => decide (x.node = n)) ∘ fun x : Waiting =>
        if x.call = f.call then { x with acks := (f.peer, doneAt) :: x.acks } else x)
        = fun x => decide (x.node = n) := by
      funext x
      simp only [Function.comp_apply]
      split <;> rfl
    rw [hnode]
    refine List.map_congr_left fun x _ => ?_
    simp only [Function.comp_apply]
    split <;> rfl
  · rw [if_neg hack]
    exact h.frame h.frames rfl rfl rfl

theorem finish (hcfg : (sys.cfg n).Reliable) (h : net.Told sys n past) {i : Nat}
    {waits : Nat → Nat × Nat} {io : ∀ m, FlushIo (sys.cfg m).cipher}
    (hord : (Event.finish i waits io : Event sys).Orderly net)
    {x : Waiting} (hx : net.waiting[i]? = some x) :
    (Net.finish sys x waits (io x.node) { net with waiting := net.waiting.eraseIdx i }).1.Told
      sys n (past ++ (Net.finish sys x waits (io x.node)
        { net with waiting := net.waiting.eraseIdx i }).2) := by
  obtain ⟨hclean, hsafe⟩ := hord x hx
  obtain ⟨l₁, l₂, hsplit, herase⟩ := getElem?_split hx
  have hafter : Net.pending { net with waiting := net.waiting.eraseIdx i } n
      = (l₁.filter fun y => decide (y.node = n)).map (fun y => (y.write, y.seq)) ++
        (l₂.filter fun y => decide (y.node = n)).map fun y => (y.write, y.seq) := by
    rw [Net.pending, herase, List.filter_append, List.map_append]
  by_cases hxn : x.node = n
  · subst hxn
    -- the call is the one the node waits with
    have hserves := h.serves
    rw [Net.pending, hsplit, List.filter_append, List.map_append,
      List.filter_cons_of_pos (by simp), List.map_cons] at hserves
    obtain ⟨hl₁, hl₂, hlogging⟩ := hserves.only
    rw [hl₁, hl₂] at hafter
    unfold Net.finish
    cases hrep : Engine.replicate (sys.cfg x.node) (Net.callsOf sys x waits) with
    | error err =>
        refine h.own (fun _ hf => hf) rfl hafter (taken_returned _ _ _ _) ?_
        rw [ClientWrite.taken, List.append_nil]
        exact hlogging.tells hcfg
    | ok m =>
        exact h.own (fun _ hf => hf) (Function.update_self ..) hafter (taken_returned _ _ _ _)
          (hlogging.apply hcfg hrep hclean hsafe)
  · have hsame : Net.pending { net with waiting := net.waiting.eraseIdx i } n
        = net.pending n := by
      rw [hafter, Net.pending, hsplit, List.filter_append, List.map_append,
        List.filter_cons_of_neg (by simp [hxn])]
    unfold Net.finish
    cases Engine.replicate (sys.cfg x.node) (Net.callsOf sys x waits) with
    | error err => exact h.frame h.frames rfl hsame (taken_returned_of_ne hxn _ _ _)
    | ok m =>
        exact h.frame h.frames (Function.update_of_ne (Ne.symm hxn) ..) hsame
          (taken_returned_of_ne hxn _ _ _)

/-- Flush and compaction. -/
theorem upkeep (hcfg : (sys.cfg n).Reliable) (h : net.Told sys n past) {m : Nat}
    (hfree : net.pending m = []) (op : Op (sys.cfg m).cipher) (hop : op.write? = none)
    (hclean : op.Clean) (hsafe : (net.nodes m).SafeStep (sys.cfg m) op) :
    (net.put m ((net.nodes m).step (sys.cfg m) op).2).Told sys n (past ++ []) := by
  by_cases hmn : m = n
  · subst hmn
    have hnone : taken m [] = [] := rfl
    refine h.own (fun _ hf => hf) (Function.update_self ..) hfree hnone ?_
    rw [List.append_nil]
    exact (h.serves.tells hcfg).upkeep hcfg hop hclean hsafe
  · exact h.frame h.frames (Function.update_of_ne (Ne.symm hmn) ..) rfl rfl

/-- **Every orderly step.** -/
theorem step (hcfg : (sys.cfg n).Reliable) (h : net.Told sys n past) {ev : Event sys}
    (hord : ev.Orderly net) : (net.step sys ev).1.Told sys n (past ++ (net.step sys ev).2) := by
  cases ev with
  | start m io w =>
      by_cases hmn : m = n
      · subst hmn
        exact h.start_self hcfg hord
      · exact h.start_other hmn io w
  | deliver i io =>
      simp only [Net.step]
      cases hf : net.frames[i]? with
      | none => exact h.frame h.frames rfl rfl rfl
      | some f => exact h.deliver hcfg hord hf
  | lose i =>
      exact h.frame (fun f hf => h.frames f (List.mem_of_mem_eraseIdx hf)) rfl rfl rfl
  | answer i doneAt =>
      simp only [Net.step]
      cases net.replies[i]? with
      | none => exact h.frame h.frames rfl rfl rfl
      | some f => exact h.answer f i doneAt
  | loseAnswer i => exact h.frame h.frames rfl rfl rfl
  | finish i waits io =>
      simp only [Net.step]
      cases hx : net.waiting[i]? with
      | none => exact h.frame h.frames rfl rfl rfl
      | some x => exact h.finish hcfg hord hx
  | flush m io => exact h.upkeep hcfg hord.1 (.flush io) rfl hord.2.1 hord.2.2
  | compact m io => exact h.upkeep hcfg hord.1 (.compact io) rfl hord.2.1 hord.2.2
  | restart m io => exact hord.elim

/-- **Every orderly run.** -/
theorem run (hcfg : (sys.cfg n).Reliable) (evs : List (Event sys)) :
    ∀ {net : Net} {past : List Note}, net.Told sys n past → net.Orderly sys evs →
      (net.run sys evs).Told sys n (past ++ net.notes sys evs) := by
  induction evs with
  | nil => intro net past h _; rw [Net.notes, List.append_nil]; exact h
  | cons ev evs ih =>
      intro net past h hord
      have hrest := ih (h.step hcfg hord.1) hord.2
      rw [List.append_assoc] at hrest
      exact hrest

end Net.Told

/-- A node of an orderly run tells the writes it took. -/
theorem tells_of_run {sys : System} {n : Nat} (hcfg : (sys.cfg n).Reliable) {net : Net}
    (hquiet : net.Quiet) {io : OpenIo}
    (hopen : (Engine.fresh (sys.cfg n)).open (sys.cfg n) io = (.ok 0, net.nodes n))
    {evs : List (Event sys)} (hord : net.Orderly sys evs) :
    ((net.run sys evs).nodes n).Tells (sys.cfg n) (taken n (net.notes sys evs)) := by
  have hstart : net.Told sys n [] := by
    refine ⟨?_, ?_⟩
    · rw [hquiet.frames]; exact fun _ hf => absurd hf List.not_mem_nil
    · rw [Net.pending, hquiet.waiting]
      exact Engine.Tells.of_open hopen
  have hend := hstart.run hcfg evs hord
  rw [List.nil_append] at hend
  exact hend.serves.tells hcfg

/-- **When two replicas agree.** In any run in which every engine is used
one operation at a time, without I/O failures and with safe compactions,
and whatever the network loses, delays and reorders: two nodes tell the
same for a key exactly when the last write on it that each of them took
asks for the same. -/
theorem replicas_agree_iff {sys : System} {leader follower : Nat}
    (hleader : (sys.cfg leader).Reliable) (hfollower : (sys.cfg follower).Reliable)
    {net : Net} (hquiet : net.Quiet) {io io' : OpenIo}
    (hopen : (Engine.fresh (sys.cfg leader)).open (sys.cfg leader) io
      = (.ok 0, net.nodes leader))
    (hopen' : (Engine.fresh (sys.cfg follower)).open (sys.cfg follower) io'
      = (.ok 0, net.nodes follower))
    {evs : List (Event sys)} (hord : net.Orderly sys evs) {k : Bytes} (hk : k ≠ []) :
    (∀ a, Answers (((net.run sys evs).nodes leader).get (sys.cfg leader) k) a ↔
        Answers (((net.run sys evs).nodes follower).get (sys.cfg follower) k) a) ↔
      latest k (taken leader (net.notes sys evs))
        = latest k (taken follower (net.notes sys evs)) := by
  have h := tells_of_run hleader hquiet hopen hord
  have h' := tells_of_run hfollower hquiet hopen' hord
  simp only [h.answers_iff hk, h'.answers_iff hk]
  exact ⟨fun hsame => ((hsame _).mp rfl).symm, fun hlast a => by rw [hlast]⟩

namespace Trio

theorem opened_ok (n : Nat) (h : ((Engine.fresh (trio.cfg n)).open (trio.cfg n) {}).1 = .ok 0) :
    (Engine.fresh (trio.cfg n)).open (trio.cfg n) {} = (.ok 0, Trio.opened.nodes n) :=
  Prod.ext h rfl

theorem reliable (n : Nat) : (trio.cfg n).Reliable :=
  ⟨(smallConfig_standalone 4096).lawful, (smallConfig_standalone 4096).encrypts⟩

theorem orderly_deliver {net : Net} {i : Nat}
    (h : ∀ f ∈ net.frames[i]?, net.pending f.peer = [] ∧ (net.nodes f.peer).SafeStep
      (trio.cfg f.peer) (f.write.toOp (.quiet (0 : Nat)))) : (deliver i).Orderly net := by
  intro f hf
  refine ⟨(h f hf).1, ?_, (h f hf).2⟩
  cases f.write with
  | set key value => exact FlushIo.quiet_clean _
  | delete key => trivial

theorem orderly_finish {net : Net}
    (h : ∀ x ∈ net.waiting[0]?, (net.nodes x.node).SafeApply (trio.cfg x.node)
      (.quiet (0 : Nat)) x.write x.seq) : finish.Orderly net :=
  fun x hx => ⟨FlushIo.quiet_clean _, h x hx⟩

theorem orderly_set {net : Net} {k v : UInt8} (h : net.pending 1 = []) :
    (set 1 k v).Orderly net :=
  ⟨h, fun hrep => by cases hrep⟩

end Trio

/-- Two sets of one key; follower 2 acknowledges both, follower 3 gets both
frames, in order. -/
def inOrder : List (Event trio) :=
  [Trio.set 1 97 1, Trio.deliver 0, .answer 0 5, Trio.deliver 0, Trio.finish,
   Trio.set 1 97 2, Trio.deliver 0, .answer 1 5, Trio.finish, Trio.deliver 0]

theorem inOrder_agree :
    taken 1 (Trio.opened.notes trio inOrder) = [.set [97] [1], .set [97] [2]] ∧
    ∀ a, Answers (((Trio.opened.run trio inOrder).nodes 1).get (trio.cfg 1) [97]) a ↔
      Answers (((Trio.opened.run trio inOrder).nodes 3).get (trio.cfg 3) [97]) a := by
  refine ⟨by decide +kernel, (replicas_agree_iff (Trio.reliable 1) (Trio.reliable 3)
    ⟨rfl, rfl, rfl⟩ (Trio.opened_ok 1 (by decide +kernel)) (Trio.opened_ok 3 (by decide +kernel))
    ?_ (by decide)).mpr (by decide +kernel)⟩
  exact ⟨Trio.orderly_set (by decide +kernel), Trio.orderly_deliver (by decide +kernel), trivial,
    Trio.orderly_deliver (by decide +kernel), Trio.orderly_finish (by decide +kernel),
    Trio.orderly_set (by decide +kernel), Trio.orderly_deliver (by decide +kernel), trivial,
    Trio.orderly_finish (by decide +kernel), Trio.orderly_deliver (by decide +kernel), trivial⟩

/-- Both writes are acknowledged by follower 2. Follower 3 executes the
second frame first. -/
def overtaken : List (Event trio) :=
  [Trio.set 1 97 1, Trio.deliver 0, .answer 0 5, Trio.finish,
   Trio.set 1 97 2, Trio.deliver 1, .answer 0 5, Trio.finish,
   Trio.deliver 1, Trio.deliver 0]

/-- The first write reaches no quorum in time. Its frame is executed by
follower 2 behind the second write, which was acknowledged. -/
def refusedLate : List (Event trio) :=
  [Trio.set 1 97 1, .lose 1, Trio.finish,
   Trio.set 1 97 2, Trio.deliver 1, .answer 0 5, Trio.finish,
   .lose 1, Trio.deliver 0]

/-- **Replicas that differ for good**: nothing is in flight, the follower has
executed every acknowledged write, and it holds a value the leader has
overwritten, or refused. -/
theorem replicas_differ :
    ((Trio.opened.run trio overtaken).frames.length = 0 ∧
      taken 1 (Trio.opened.notes trio overtaken) = [.set [97] [1], .set [97] [2]] ∧
      taken 3 (Trio.opened.notes trio overtaken) = [.set [97] [2], .set [97] [1]] ∧
      ((Trio.opened.run trio overtaken).nodes 1).get (trio.cfg 1) [97] = .ok [2] ∧
      ((Trio.opened.run trio overtaken).nodes 3).get (trio.cfg 3) [97] = .ok [1]) ∧
    ((Trio.opened.run trio refusedLate).frames.length = 0 ∧
      taken 1 (Trio.opened.notes trio refusedLate) = [.set [97] [2]] ∧
      taken 2 (Trio.opened.notes trio refusedLate) = [.set [97] [2], .set [97] [1]] ∧
      ((Trio.opened.run trio refusedLate).nodes 1).get (trio.cfg 1) [97] = .ok [2] ∧
      ((Trio.opened.run trio refusedLate).nodes 2).get (trio.cfg 2) [97] = .ok [1]) := by
  decide +kernel

end VaultKV
