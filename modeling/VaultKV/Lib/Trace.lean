import Mathlib

/-!
# Trace — properties along a trace

`Along step good xs s` says that each entry of `xs` is good in the state it
is met in, when a machine that starts in `s` takes the entries one after the
other. Two rules: entries that are good in the same states are good along
the same traces (`along_congr`), what every step keeps holds at the end
(`runAlong_keeps`), and an invariant that a step keeps exactly
when its entry is good holds all the way exactly along the good traces
(`always_iff_along`; `always_iff_along_within` for the traces whose entries
are possible where they are met).
-/

namespace VaultKV.Lib

variable {α σ : Type}

def Along (step : α → σ → σ) (good : α → σ → Prop) : List α → σ → Prop
  | [], _ => True
  | x :: xs, s => good x s ∧ Along step good xs (step x s)

instance Along.decidable (step : α → σ → σ) (good : α → σ → Prop)
    [∀ x s, Decidable (good x s)] :
    (xs : List α) → (s : σ) → Decidable (Along step good xs s)
  | [], _ => isTrue trivial
  | x :: xs, s =>
      have := Along.decidable step good xs (step x s)
      inferInstanceAs (Decidable (good x s ∧ _))

/-- The state after the entries. -/
def runAlong (step : α → σ → σ) : List α → σ → σ
  | [], s => s
  | x :: xs, s => runAlong step xs (step x s)

section

variable {step : α → σ → σ} {good good' possible : α → σ → Prop} {I : σ → Prop}

theorem along_of_forall (h : ∀ x s, good x s) (xs : List α) :
    ∀ s, Along step good xs s := by
  induction xs with
  | nil => intro s; trivial
  | cons x xs ih => intro s; exact ⟨h x s, ih (step x s)⟩

/-- Entries that are good whatever the state. -/
theorem along_of_all {P : α → Prop} (xs : List α) (h : ∀ x ∈ xs, P x) :
    ∀ s, Along step (fun x _ => P x) xs s := by
  induction xs with
  | nil => intro s; trivial
  | cons x xs ih =>
      intro s
      exact ⟨h x List.mem_cons_self, ih (fun y hy => h y (List.mem_cons_of_mem x hy)) (step x s)⟩

/-- **An entry of a good trace** is good in the state it is met in. -/
theorem Along.split {x : α} {post : List α} (pre : List α) :
    ∀ {s}, Along step good (pre ++ x :: post) s → good x (runAlong step pre s) := by
  induction pre with
  | nil => intro s h; exact h.1
  | cons y pre ih => intro s h; exact ih h.2

/-- A machine that collects ends with all it has collected. -/
theorem runAlong_collect {β : Type} (f : α → List β) (xs : List α) :
    ∀ ys, runAlong (fun x ys => ys ++ f x) xs ys = ys ++ xs.flatMap f := by
  induction xs with
  | nil => intro ys; exact (List.append_nil ys).symm
  | cons x xs ih => intro ys; rw [runAlong, ih, List.flatMap_cons, List.append_assoc]

/-- **What every step keeps** holds after any trace. -/
theorem runAlong_keeps (hstep : ∀ x s, I s → I (step x s)) (xs : List α) :
    ∀ {s}, I s → I (runAlong step xs s) := by
  induction xs with
  | nil => intro s hs; exact hs
  | cons x xs ih => intro s hs; exact ih (hstep x s hs)

/-- **What every good step keeps** holds after a good trace. -/
theorem Along.keeps (hstep : ∀ x s, I s → good x s → I (step x s)) (xs : List α) :
    ∀ {s}, Along step good xs s → I s → I (runAlong step xs s) := by
  induction xs with
  | nil => intro s _ hs; exact hs
  | cons x xs ih => intro s hgood hs; exact ih hgood.2 (hstep x s hs hgood.1)

/-- **Good in the same states, good along the same traces.** -/
theorem along_congr (hstep : ∀ x s, I s → I (step x s))
    (hgood : ∀ x s, I s → (good x s ↔ good' x s)) (xs : List α) :
    ∀ {s}, I s → (Along step good xs s ↔ Along step good' xs s) := by
  induction xs with
  | nil => intro s _; exact Iff.rfl
  | cons x xs ih => intro s hs; exact and_congr (hgood x s hs) (ih (hstep x s hs))

/-- **An invariant that is kept exactly by the good entries** holds after
every initial part of a trace of possible entries exactly when the trace is
good. -/
theorem always_iff_along_within
    (hstep : ∀ x s, I s → possible x s → (I (step x s) ↔ good x s)) (xs : List α) :
    ∀ {s}, I s → Along step possible xs s →
      ((∀ done, done <+: xs → I (runAlong step done s)) ↔ Along step good xs s) := by
  induction xs with
  | nil =>
      intro s hs _
      refine iff_of_true (fun done hdone => ?_) trivial
      rw [List.prefix_nil.mp hdone]
      exact hs
  | cons x xs ih =>
      rintro s hs ⟨hpossible, hlater⟩
      rw [Along, ← hstep x s hs hpossible]
      constructor
      · intro hall
        have hx : I (step x s) := hall [x] (List.prefix_append [x] xs)
        refine ⟨hx, (ih hx hlater).mp fun done hdone => ?_⟩
        exact hall (x :: done) (List.prefix_cons_inj x |>.mpr hdone)
      · rintro ⟨hx, hrest⟩ done hdone
        cases done with
        | nil => exact hs
        | cons y done =>
            obtain ⟨rfl, hdone'⟩ := List.cons_prefix_cons.mp hdone
            exact (ih hx hlater).mpr hrest done hdone'

/-- The same where every entry is possible everywhere. -/
theorem always_iff_along (hstep : ∀ x s, I s → (I (step x s) ↔ good x s)) (xs : List α)
    {s : σ} (hs : I s) :
    (∀ done, done <+: xs → I (runAlong step done s)) ↔ Along step good xs s :=
  always_iff_along_within (fun x s hs _ => hstep x s hs) xs hs
    (along_of_forall (fun _ _ => True.intro) xs s)

end

end VaultKV.Lib
