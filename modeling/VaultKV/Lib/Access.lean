import VaultKV.Lib.Bytes

/-!
# Access — computations that record which elements they touch

A `Traced` computation carries, beside its result, every ACCESS it made: the
index and the size of the buffer it was made to. An access outside its
buffer is not an error of the computation (it goes on with whatever is
there, as a program does), it is a fact about the trace. `Runs m a` says
that no access of `m` leaves its buffer and that `m` returns `a`; the rules
follow the program: `pure`, `bind`, a load, a copy. `While` is a loop whose
body is traced; a loop with a measure is left, and its whole trace is good
if every round's is.
-/

namespace VaultKV.Lib

/-- One element of a buffer of `size` elements is read or written. -/
structure Access where
  index : Nat
  size : Nat
  deriving DecidableEq, Repr

/-- A result and the accesses made on the way to it. -/
structure Traced (α : Type) where
  val : α
  seen : List Access

namespace Traced

variable {α β σ ρ : Type}

instance : Monad Traced where
  pure a := ⟨a, []⟩
  bind m f := ⟨(f m.val).val, m.seen ++ (f m.val).seen⟩

/-- Every access lies inside its buffer. -/
def InBounds (m : Traced α) : Prop := ∀ a ∈ m.seen, a.index < a.size

/-- `m` stays inside its buffers and returns `a`. -/
structure Runs (m : Traced α) (a : α) : Prop where
  val : m.val = a
  inBounds : m.InBounds

theorem Runs.pure (a : α) : Runs (Pure.pure a) a := ⟨rfl, by intro x hx; cases hx⟩

theorem Runs.bind {m : Traced α} {f : α → Traced β} {a : α} {b : β} (hm : Runs m a)
    (hf : Runs (f a) b) : Runs (m >>= f) b := by
  obtain ⟨rfl, hin⟩ := hm
  refine ⟨hf.val, fun x hx => ?_⟩
  rcases List.mem_append.mp hx with h | h
  · exact hin x h
  · exact hf.inBounds x h

/-! ## Loads and stores -/

/-- `buf[i]`. -/
def load (buf : Bytes) (i : Nat) : Traced UInt8 := ⟨buf.getD i 0, [⟨i, buf.length⟩]⟩

/-- `n` elements from `i` on, one after the other. -/
def loads (buf : Bytes) : Nat → Nat → Traced Bytes
  | _, 0 => pure []
  | i, n + 1 => do
      let b ← load buf i
      let bs ← loads buf (i + 1) n
      pure (b :: bs)

/-- A little-endian integer of `size` bytes at `i`. -/
def loadLe (size : Nat) (buf : Bytes) (i : Nat) : Traced Nat := do
  let b ← loads buf i size
  pure (leNat b)

/-- `buf[i] = b`. -/
def store (buf : Bytes) (i : Nat) (b : UInt8) : Traced Bytes :=
  ⟨buf.set i b, [⟨i, buf.length⟩]⟩

/-- The elements of `bs` stored from `i` on, one after the other. -/
def stores (buf : Bytes) : Nat → Bytes → Traced Bytes
  | _, [] => pure buf
  | i, b :: bs => do
      let buf ← store buf i b
      stores buf (i + 1) bs

theorem Runs.load {buf : Bytes} {i : Nat} (h : i < buf.length) :
    Runs (load buf i) (buf.getD i 0) := by
  refine ⟨rfl, fun x hx => ?_⟩
  rw [List.mem_singleton.mp hx]
  exact h

theorem Runs.loads {buf : Bytes} (n : Nat) :
    ∀ {i : Nat}, i + n ≤ buf.length → Runs (loads buf i n) (slice buf i n) := by
  induction n with
  | zero =>
      intro i _
      rw [slice, List.take_zero]
      exact Runs.pure []
  | succ n ih =>
      intro i h
      have hi : i < buf.length := by omega
      have hcut : slice buf i (n + 1) = buf.getD i 0 :: slice buf (i + 1) n := by
        rw [slice, slice, List.drop_eq_getElem_cons hi, List.take_succ_cons,
          List.getD_eq_getElem buf 0 hi]
      rw [hcut]
      exact (Runs.load hi).bind ((ih (by omega)).bind (Runs.pure _))

theorem Runs.loadLe {size : Nat} {buf : Bytes} {i : Nat} (h : i + size ≤ buf.length) :
    Runs (loadLe size buf i) (leNat (slice buf i size)) :=
  (Runs.loads size h).bind (Runs.pure _)

theorem Runs.stores (bs : Bytes) :
    ∀ {buf : Bytes} {i : Nat}, i + bs.length ≤ buf.length →
      Runs (stores buf i bs) (overwrite buf i bs) := by
  induction bs with
  | nil =>
      intro buf i _
      have hnone : overwrite buf i [] = buf := List.take_append_drop i buf
      rw [hnone]
      exact Runs.pure buf
  | cons b bs ih =>
      intro buf i h
      rw [List.length_cons] at h
      have hi : i < buf.length := by omega
      have hstep : overwrite buf i (b :: bs) = overwrite (buf.set i b) (i + 1) bs := by
        have hfront : (buf.set i b).take (i + 1) = buf.take i ++ [b] := by
          rw [List.set_eq_take_append_cons_drop, if_pos hi, List.take_append]
          simp [hi.le]
        have hback : (buf.set i b).drop (i + 1 + bs.length) = buf.drop (i + 1 + bs.length) :=
          List.drop_set_of_lt (by omega)
        rw [overwrite, overwrite, hfront, hback, List.length_cons, List.append_assoc,
          show i + (bs.length + 1) = i + 1 + bs.length by omega]
        rfl
      rw [hstep]
      have hstore : Runs (Traced.store buf i b) (buf.set i b) := by
        refine ⟨rfl, fun x hx => ?_⟩
        rw [List.mem_singleton.mp hx]
        exact hi
      exact hstore.bind (ih (by rw [List.length_set]; omega))

/-! ## Loops -/

/-- `while`: `round s` goes on with another state or leaves with a result.
The loop from `s` ends with this result and this trace. -/
inductive While (round : σ → Traced (σ ⊕ ρ)) : σ → Traced ρ → Prop where
  | leave {s : σ} {r : ρ} (h : (round s).val = .inr r) : While round s ⟨r, (round s).seen⟩
  | again {s s' : σ} {t : Traced ρ} (h : (round s).val = .inl s') (rest : While round s' t) :
      While round s ⟨t.val, (round s).seen ++ t.seen⟩

/-- What one round must do for a loop to end in bounds with `post`: leave
with `post`, or keep `Inv`, lower the measure and hand `post` back. -/
structure Round (round : σ → Traced (σ ⊕ ρ)) (Inv : σ → Prop) (μ : σ → Nat)
    (post : σ → ρ → Prop) (s : σ) : Prop where
  inBounds : (round s).InBounds
  leave : ∀ r, (round s).val = .inr r → post s r
  again : ∀ s', (round s).val = .inl s' → Inv s' ∧ μ s' < μ s ∧ ∀ r, post s' r → post s r

section

variable {round : σ → Traced (σ ⊕ ρ)} {Inv : σ → Prop} {μ : σ → Nat} {post : σ → ρ → Prop}
  {s s' : σ} {r : ρ}

/-- A round that leaves the loop. -/
theorem Round.of_leave (h : Runs (round s) (.inr r)) (hpost : post s r) :
    Round round Inv μ post s := by
  refine ⟨h.inBounds, fun r' hr => ?_, fun s' hs => ?_⟩
  · rw [h.val] at hr
    cases hr
    exact hpost
  · rw [h.val] at hs
    cases hs

/-- A round that goes on. -/
theorem Round.of_again (h : Runs (round s) (.inl s')) (hinv : Inv s') (hless : μ s' < μ s)
    (hpost : ∀ r, post s' r → post s r) : Round round Inv μ post s := by
  refine ⟨h.inBounds, fun r hr => ?_, fun s'' hs => ?_⟩
  · rw [h.val] at hr
    cases hr
  · rw [h.val] at hs
    cases hs
    exact ⟨hinv, hless, hpost⟩

end

theorem while_ends {round : σ → Traced (σ ⊕ ρ)} {Inv : σ → Prop} {μ : σ → Nat}
    {post : σ → ρ → Prop} (h : ∀ s, Inv s → Round round Inv μ post s) :
    ∀ s, Inv s → ∃ t, While round s t ∧ t.InBounds ∧ post s t.val := by
  intro s
  -- on the measure: the state of the next round has a smaller one
  induction hn : μ s using Nat.strong_induction_on generalizing s with
  | _ n ih =>
      intro hs
      have hround := h s hs
      cases hval : (round s).val with
      | inr r => exact ⟨_, .leave hval, hround.inBounds, hround.leave r hval⟩
      | inl s' =>
          obtain ⟨hs', hlt, hpost⟩ := hround.again s' hval
          obtain ⟨t, ht, hin, hr⟩ := ih (μ s') (hn ▸ hlt) s' rfl hs'
          refine ⟨_, .again hval ht, fun a ha => ?_, hpost _ hr⟩
          rcases List.mem_append.mp ha with h | h
          · exact hround.inBounds a h
          · exact hin a h

end Traced

end VaultKV.Lib
