import Mathlib

/-!
# Framing — self-delimiting frames cut out of a growing buffer

A `Framing` looks at the front of a buffer and says that more input is
needed, that no input will help, or that a frame of some size stands
there; once it has said the second or the third, further input does not
change its mind. Cutting a buffer into frames is then INDEPENDENT of how
its bytes arrived, as long as no front is bad (`feed_eq`).
-/

namespace VaultKV.Lib

variable {α φ ε σ : Type}

/-- What stands at the front of a buffer. -/
inductive Head (φ ε : Type) where
  | more
  | bad (e : ε)
  | frame (f : φ) (size : Nat)
  deriving DecidableEq, Repr

/-- A format whose verdicts are final. -/
structure Framing (α φ ε : Type) where
  head : List α → Head φ ε
  size_pos : ∀ {buf f n}, head buf = .frame f n → 0 < n
  size_le : ∀ {buf f n}, head buf = .frame f n → n ≤ buf.length
  frame_append : ∀ {buf f n}, head buf = .frame f n → ∀ x, head (buf ++ x) = .frame f n
  bad_append : ∀ {buf e}, head buf = .bad e → ∀ x, head (buf ++ x) = .bad e

namespace Framing

variable (P : Framing α φ ε)

/-- The frames `fs` stand in front of `rest`, where the cutting stops for
want of input or on a bad front. -/
inductive Splits : List α → List φ → List α → Option ε → Prop
  | more {buf : List α} : P.head buf = .more → Splits buf [] buf none
  | bad {buf : List α} {e : ε} : P.head buf = .bad e → Splits buf [] buf (some e)
  | frame {buf rest : List α} {f : φ} {n : Nat} {fs : List φ} {stop : Option ε} :
      P.head buf = .frame f n → Splits (buf.drop n) fs rest stop →
        Splits buf (f :: fs) rest stop

variable {P}

/-- Every buffer is cut somehow. -/
theorem exists_splits (buf : List α) : ∃ fs rest stop, P.Splits buf fs rest stop := by
  generalize hn : buf.length = n
  induction n using Nat.strongRecOn generalizing buf with
  | ind n ih =>
      cases hh : P.head buf with
      | more => exact ⟨[], buf, none, .more hh⟩
      | bad e => exact ⟨[], buf, some e, .bad hh⟩
      | frame f k =>
          have hpos := P.size_pos hh
          have hle := P.size_le hh
          obtain ⟨fs, rest, stop, h⟩ := ih (buf.drop k).length
            (by rw [List.length_drop]; omega) (buf.drop k) rfl
          exact ⟨f :: fs, rest, stop, .frame hh h⟩

/-- There is only one way to cut. -/
theorem Splits.unique {buf rest rest' : List α} {fs fs' : List φ} {stop stop' : Option ε}
    (h : P.Splits buf fs rest stop) (h' : P.Splits buf fs' rest' stop') :
    fs = fs' ∧ rest = rest' ∧ stop = stop' := by
  induction h generalizing fs' rest' stop' with
  | more hm =>
      cases h' with
      | more => exact ⟨rfl, rfl, rfl⟩
      | bad hb => rw [hm] at hb; cases hb
      | frame hf _ => rw [hm] at hf; cases hf
  | bad hb =>
      cases h' with
      | more hm => rw [hb] at hm; cases hm
      | bad hb' => rw [hb] at hb'; cases hb'; exact ⟨rfl, rfl, rfl⟩
      | frame hf _ => rw [hb] at hf; cases hf
  | frame hf _ ih =>
      cases h' with
      | more hm => rw [hf] at hm; cases hm
      | bad hb => rw [hf] at hb; cases hb
      | frame hf' hrest =>
          rw [hf] at hf'
          cases hf'
          obtain ⟨rfl, rfl, rfl⟩ := ih hrest
          exact ⟨rfl, rfl, rfl⟩

theorem Splits.head_rest {buf rest : List α} {fs : List φ} (h : P.Splits buf fs rest none) :
    P.head rest = .more := by
  generalize hs : (none : Option ε) = stop at h
  induction h with
  | more hm => exact hm
  | bad hb => cases hs
  | frame _ _ ih => exact ih hs

/-- **More input** is cut from where the cutting stopped. -/
theorem Splits.append {buf rest x rest' : List α} {fs gs : List φ} {stop : Option ε}
    (h : P.Splits buf fs rest none) (h' : P.Splits (rest ++ x) gs rest' stop) :
    P.Splits (buf ++ x) (fs ++ gs) rest' stop := by
  generalize hs : (none : Option ε) = s at h
  induction h with
  | more hm => exact h'
  | bad hb => cases hs
  | frame hf _ ih =>
      refine .frame (P.frame_append hf x) ?_
      rw [List.drop_append_of_le_length (P.size_le hf)]
      exact ih h' hs

/-- A bad front stays bad. -/
theorem Splits.append_bad {buf rest : List α} {fs : List φ} {e : ε}
    (h : P.Splits buf fs rest (some e)) (x : List α) :
    P.Splits (buf ++ x) fs (rest ++ x) (some e) := by
  generalize hs : some e = stop at h
  induction h with
  | more hm => cases hs
  | bad hb => cases hs; exact .bad (P.bad_append hb x)
  | frame hf _ ih =>
      refine .frame (P.frame_append hf x) ?_
      rw [List.drop_append_of_le_length (P.size_le hf)]
      exact ih hs

/-- If the cutting of a longer buffer only stops for want of input, so does
that of the shorter one. -/
theorem Splits.of_append {buf x rest : List α} {fs : List φ}
    (h : P.Splits (buf ++ x) fs rest none) :
    ∃ fs₁ fs₂ rest₁, P.Splits buf fs₁ rest₁ none ∧ P.Splits (rest₁ ++ x) fs₂ rest none ∧
      fs = fs₁ ++ fs₂ := by
  obtain ⟨fs₁, rest₁, stop, h₁⟩ := P.exists_splits buf
  cases stop with
  | some e => cases (h.unique (h₁.append_bad x)).2.2
  | none =>
      obtain ⟨fs₂, rest₂, stop₂, h₂⟩ := P.exists_splits (rest₁ ++ x)
      obtain ⟨rfl, rfl, rfl⟩ := h.unique (h₁.append h₂)
      exact ⟨fs₁, fs₂, rest₁, h₁, h₂, rfl⟩

/-! ## Chunks -/

/-- A parser that cuts as the format says; on a bad front it hands out an
error and leaves the buffer alone. -/
def Parses (P : Framing α φ ε) (parse : List α → Option ε × List φ × List α) : Prop :=
  ∀ {buf fs rest stop}, P.Splits buf fs rest stop →
    parse buf = (stop, fs, if stop.isSome then buf else rest)

/-- Chunks are appended to the buffer one by one, with one call of the
parser after each: its frames are processed in order, or its error is. -/
def feed (parse : List α → Option ε × List φ × List α) (step : σ → φ → σ) (fail : σ → ε → σ)
    (buf : List α) (s : σ) : List (List α) → List α × σ
  | [] => (buf, s)
  | c :: cs =>
      match parse (buf ++ c) with
      | (none, fs, rest) => feed parse step fail rest (fs.foldl step s) cs
      | (some e, _, rest) => feed parse step fail rest (fail s e) cs

section

variable {parse : List α → Option ε × List φ × List α} {step : σ → φ → σ} {fail : σ → ε → σ}

theorem feed_good (hp : Parses P parse) {buf c rest : List α} {fs : List φ}
    (h : P.Splits (buf ++ c) fs rest none) (s : σ) (cs : List (List α)) :
    feed parse step fail buf s (c :: cs)
      = feed parse step fail rest (fs.foldl step s) cs := by
  rw [feed, hp h]
  rfl

theorem feed_bad (hp : Parses P parse) {buf c rest : List α} {fs : List φ} {e : ε}
    (h : P.Splits (buf ++ c) fs rest (some e)) (s : σ) (cs : List (List α)) :
    feed parse step fail buf s (c :: cs) = feed parse step fail (buf ++ c) (fail s e) cs := by
  rw [feed, hp h]
  rfl

theorem feed_append (buf : List α) (s : σ) (cs cs' : List (List α)) :
    feed parse step fail buf s (cs ++ cs')
      = feed parse step fail (feed parse step fail buf s cs).1
          (feed parse step fail buf s cs).2 cs' := by
  induction cs generalizing buf s with
  | nil => rfl
  | cons c cs ih =>
      rw [List.cons_append, feed, feed]
      split
      · exact ih _ _
      · exact ih _ _

/-- One chunk is one call of the parser. -/
theorem feed_one (buf c : List α) (s : σ) :
    feed parse step fail buf s [c]
      = ((parse (buf ++ c)).2.2,
         match (parse (buf ++ c)).1 with
         | none => (parse (buf ++ c)).2.1.foldl step s
         | some e => fail s e) := by
  rw [feed]
  obtain ⟨stop, fs, rest⟩ := parse (buf ++ c)
  cases stop <;> rfl

/-- **Frames do not depend on chunks**: while no front is bad, every way of
cutting the input into chunks processes the frames of the whole input and
leaves its rest. -/
theorem feed_eq (hp : Parses P parse) (chunks : List (List α)) :
    ∀ {buf rest : List α} {fs : List φ} (s : σ), P.head buf = .more →
      P.Splits (buf ++ chunks.flatten) fs rest none →
      feed parse step fail buf s chunks = (rest, fs.foldl step s) := by
  induction chunks with
  | nil =>
      intro buf rest fs s hmore h
      rw [List.flatten_nil, List.append_nil] at h
      obtain ⟨rfl, rfl, -⟩ := h.unique (.more hmore)
      rfl
  | cons c cs ih =>
      intro buf rest fs s hmore h
      rw [List.flatten_cons, ← List.append_assoc] at h
      obtain ⟨fs₁, fs₂, rest₁, h₁, h₂, rfl⟩ := h.of_append
      rw [feed_good hp h₁, ih _ h₁.head_rest h₂, List.foldl_append]

end

end Framing

end VaultKV.Lib
