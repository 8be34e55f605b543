import VaultKV.Lib.Trace

/-!
# Serial — many clients of one sequential object

A sequential object answers one request at a time. A HISTORY lists who asked
what and what was answered, in the order of the answers; it is legal when the
object, given the requests in this order, gives these answers. What each
client sees is the part of the history that is its own (`exchangesOf`). A legal
history is explained by anything that simulates the object
(`Legal.simulates`).
-/

namespace VaultKV.Lib

variable {σ τ ι : Type} {Q R : Type}

/-- One request with its answer. -/
structure Exchange (ι Q R : Type) where
  client : ι
  request : Q
  reply : R
  deriving DecidableEq

/-- The object goes from one state to another with this history. -/
def Legal (exec : σ → Q → R × σ) : σ → List (Exchange ι Q R) → σ → Prop
  | s, [], s' => s' = s
  | s, c :: cs, s' =>
      c.reply = (exec s c.request).1 ∧ Legal exec (exec s c.request).2 cs s'

variable {exec : σ → Q → R × σ}

theorem legal_append (h h' : List (Exchange ι Q R)) :
    ∀ {s s' : σ}, Legal exec s (h ++ h') s' ↔ ∃ t, Legal exec s h t ∧ Legal exec t h' s' := by
  induction h with
  | nil =>
      intro s s'
      constructor
      · intro hlegal; exact ⟨s, rfl, hlegal⟩
      · rintro ⟨t, rfl, hlegal⟩; exact hlegal
  | cons c cs ih =>
      intro s s'
      simp only [List.cons_append, Legal, ih, and_assoc, exists_and_left]

/-- **One more request** is answered in the state the history leads to. -/
theorem Legal.snoc {h : List (Exchange ι Q R)} {s t : σ} (hlegal : Legal exec s h t) (client : ι)
    (request : Q) :
    Legal exec s (h ++ [⟨client, request, (exec t request).1⟩]) (exec t request).2 :=
  (legal_append h _).mpr ⟨t, hlegal, rfl, rfl⟩

/-- **Simulation.** If every answer of the object is right for a state of the
specification that stands for the object's own, and the two go on standing for
each other, then every answer of a legal history is right where it is
given. -/
theorem Legal.simulates (stands : σ → τ → Prop) {good : Q → σ → Prop}
    (next : Exchange ι Q R → τ → τ) (right : Exchange ι Q R → τ → Prop)
    (hstep : ∀ {s t} (c : Exchange ι Q R), stands s t → good c.request s →
      c.reply = (exec s c.request).1 → right c t ∧ stands (exec s c.request).2 (next c t))
    (h : List (Exchange ι Q R)) :
    ∀ {s s' : σ} {t : τ}, Legal exec s h s' → stands s t →
      Along (fun q s => (exec s q).2) good (h.map Exchange.request) s →
        Along next right h t ∧ stands s' (runAlong next h t) := by
  induction h with
  | nil =>
      rintro s s' t rfl hs -
      exact ⟨trivial, hs⟩
  | cons c cs ih =>
      rintro s s' t ⟨hreply, hlater⟩ hs ⟨hgood, hrest⟩
      obtain ⟨hright, hs'⟩ := hstep c hs hgood hreply
      obtain ⟨hall, hend⟩ := ih hlater hs' hrest
      exact ⟨⟨hright, hall⟩, hend⟩

/-! ## One client -/

section

variable [DecidableEq ι]

/-- What one client asked and was answered. -/
def exchangesOf (client : ι) (h : List (Exchange ι Q R)) : List (Exchange ι Q R) :=
  h.filter fun c => c.client = client

@[simp] theorem exchangesOf_nil (client : ι) : exchangesOf client ([] : List (Exchange ι Q R)) = [] := rfl

@[simp] theorem exchangesOf_append (client : ι) (h h' : List (Exchange ι Q R)) :
    exchangesOf client (h ++ h') = exchangesOf client h ++ exchangesOf client h' :=
  List.filter_append ..

theorem exchangesOf_self {client : ι} {h : List (Exchange ι Q R)} (hall : ∀ c ∈ h, c.client = client) :
    exchangesOf client h = h := by
  apply List.filter_eq_self.mpr
  intro c hc
  simp [hall c hc]

end

end VaultKV.Lib
