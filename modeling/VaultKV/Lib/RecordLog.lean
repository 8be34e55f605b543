import VaultKV.Lib.Bytes

/-!
# RecordLog — self-delimiting records read one behind the other

A log segment is read through a parser `parse : Nat → Option (ρ × Nat)`:
at an offset it either fails or yields a record and the offset of the
next one. Everything here is about such a parser alone, so it serves any
record format:

* `Chain parse o rs e` — the records `rs` stand without a gap from `o`
  to `e`;
* `scan` — the LOOP that collects records until the parser fails or the
  limit is reached, `recordsFrom` its value with enough rounds;
* `recordsFrom_chain` — a scan over a chain delivers the chain and goes
  on at its end, the one fact that recovery arguments use.
-/

namespace VaultKV.Lib

variable {ρ : Type}

/-- The records `rs` follow each other from offset `o` to offset `e`. -/
inductive Chain (parse : Nat → Option (ρ × Nat)) : Nat → List ρ → Nat → Prop
  | nil (o : Nat) : Chain parse o [] o
  | cons {o o' e : Nat} {r : ρ} {rs : List ρ} :
      parse o = some (r, o') → Chain parse o' rs e → Chain parse o (r :: rs) e

/-- A record occupies at least one byte and ends inside the segment. -/
def Progress (parse : Nat → Option (ρ × Nat)) (limit : Nat) : Prop :=
  ∀ o r o', parse o = some (r, o') → o < o' ∧ o' ≤ limit

/-- The collecting loop, cut off after `fuel` rounds: the records and the
offset where it stopped. -/
def scan (parse : Nat → Option (ρ × Nat)) (limit : Nat) :
    Nat → Nat → List ρ × Nat
  | 0, o => ([], o)
  | fuel + 1, o =>
      if o < limit then
        match parse o with
        | none => ([], o)
        | some (r, o') =>
            (r :: (scan parse limit fuel o').1, (scan parse limit fuel o').2)
      else ([], o)

/-- The loop with as many rounds as there are bytes left. -/
def recordsFrom (parse : Nat → Option (ρ × Nat)) (limit o : Nat) :
    List ρ × Nat :=
  scan parse limit (limit - o) o

/-! ## Chains -/

theorem Chain.single {parse : Nat → Option (ρ × Nat)} {o o' : Nat} {r : ρ}
    (h : parse o = some (r, o')) : Chain parse o [r] o' :=
  .cons h (.nil o')

theorem Chain.append {parse : Nat → Option (ρ × Nat)} {o m e : Nat}
    {rs ss : List ρ} (h : Chain parse o rs m) (h' : Chain parse m ss e) :
    Chain parse o (rs ++ ss) e := by
  induction h with
  | nil o => exact h'
  | cons hp _ ih => exact .cons hp (ih h')

theorem Chain.le {parse : Nat → Option (ρ × Nat)} {limit o e : Nat}
    {rs : List ρ} (hprog : Progress parse limit) (h : Chain parse o rs e) :
    o ≤ e := by
  induction h with
  | nil o => exact Nat.le_refl o
  | cons hp _ ih =>
      have := (hprog _ _ _ hp).1
      omega

theorem Chain.le_limit {parse : Nat → Option (ρ × Nat)} {limit o e : Nat}
    {rs : List ρ} (hprog : Progress parse limit) (ho : o ≤ limit)
    (h : Chain parse o rs e) : e ≤ limit := by
  induction h with
  | nil o => exact ho
  | cons hp _ ih => exact ih (hprog _ _ _ hp).2

/-- A chain survives every change of the parser that leaves the records
ending at or before `e` readable. -/
theorem Chain.mono {parse parse' : Nat → Option (ρ × Nat)} {limit o e : Nat}
    {rs : List ρ} (hprog : Progress parse limit)
    (hsame : ∀ i r i', parse i = some (r, i') → i' ≤ e →
      parse' i = some (r, i'))
    (h : Chain parse o rs e) : Chain parse' o rs e := by
  induction h with
  | nil o => exact .nil o
  | cons hp hrest ih => exact .cons (hsame _ _ _ hp (hrest.le hprog)) (ih hsame)

/-- A chain cut at a limit: the records that end within it, and the rest,
which begins with one that ends beyond. -/
theorem Chain.cut {parse : Nat → Option (ρ × Nat)} {limit o e : Nat} {rs : List ρ} (n : Nat)
    (hprog : Progress parse limit) (h : Chain parse o rs e) (ho : o ≤ n) :
    ∃ kept lost m, rs = kept ++ lost ∧ Chain parse o kept m ∧ m ≤ n ∧
      (e ≤ n → lost = [] ∧ m = e) ∧
      (n < e → ∃ r rest m', lost = r :: rest ∧ parse m = some (r, m') ∧ n < m') := by
  induction h with
  | nil o =>
      exact ⟨[], [], o, rfl, .nil o, ho, fun _ => ⟨rfl, rfl⟩, fun hlt => absurd ho (by omega)⟩
  | @cons o o' e r rs hp hrest ih =>
      by_cases hfit : o' ≤ n
      · obtain ⟨kept, lost, m, rfl, hkept, hm, hall, hcut⟩ := ih hfit
        exact ⟨r :: kept, lost, m, rfl, .cons hp hkept, hm, hall, hcut⟩
      · have hle := hrest.le hprog
        exact ⟨[], r :: rs, o, rfl, .nil o, ho, fun hlt => absurd hlt (by omega),
          fun _ => ⟨r, rs, o', rfl, hp, by omega⟩⟩

/-! ## The loop -/

theorem scan_eq_nil {parse : Nat → Option (ρ × Nat)} {limit o : Nat}
    (h : parse o = none) (fuel : Nat) : scan parse limit fuel o = ([], o) := by
  cases fuel with
  | zero => rfl
  | succ fuel => simp only [scan, h, ite_self]

/-- Rounds beyond the number of bytes left change nothing. -/
theorem scan_eq_recordsFrom {parse : Nat → Option (ρ × Nat)} {limit : Nat}
    (hprog : Progress parse limit) (fuel : Nat) :
    ∀ o, limit - o ≤ fuel → scan parse limit fuel o = recordsFrom parse limit o := by
  induction fuel using Nat.strongRecOn with
  | ind fuel ih =>
      intro o hfuel
      rcases Nat.lt_or_ge o limit with hlt | hge
      · obtain ⟨f, rfl⟩ : ∃ f, fuel = f + 1 := ⟨fuel - 1, by omega⟩
        obtain ⟨g, hg⟩ : ∃ g, limit - o = g + 1 := ⟨limit - o - 1, by omega⟩
        simp only [recordsFrom, hg, scan, if_pos hlt]
        cases hp : parse o with
        | none => rfl
        | some ro =>
            obtain ⟨r, o'⟩ := ro
            have ho := hprog _ _ _ hp
            have hf := ih f (by omega) o' (by omega)
            have hg' := ih g (by omega) o' (by omega)
            simp only [hf, hg']
      · rw [recordsFrom, Nat.sub_eq_zero_of_le hge]
        cases fuel with
        | zero => rfl
        | succ f => simp only [scan, if_neg (Nat.not_lt.mpr hge)]

/-- The loop stops at once where the parser fails. -/
theorem recordsFrom_none {parse : Nat → Option (ρ × Nat)} {limit o : Nat}
    (h : parse o = none) : recordsFrom parse limit o = ([], o) :=
  scan_eq_nil h _

/-- One round of the loop. -/
theorem recordsFrom_some {parse : Nat → Option (ρ × Nat)} {limit o o' : Nat}
    {r : ρ} (hprog : Progress parse limit) (h : parse o = some (r, o')) :
    recordsFrom parse limit o =
      (r :: (recordsFrom parse limit o').1, (recordsFrom parse limit o').2) := by
  have ho := hprog _ _ _ h
  obtain ⟨g, hg⟩ : ∃ g, limit - o = g + 1 := ⟨limit - o - 1, by omega⟩
  rw [recordsFrom, hg]
  simp only [scan, if_pos (show o < limit by omega), h]
  rw [scan_eq_recordsFrom hprog g o' (by omega)]

/-- **A scan over a chain** delivers the chain's records and goes on at
its end. -/
theorem recordsFrom_chain {parse : Nat → Option (ρ × Nat)} {limit o e : Nat}
    {rs : List ρ} (hprog : Progress parse limit) (h : Chain parse o rs e) :
    recordsFrom parse limit o =
      (rs ++ (recordsFrom parse limit e).1, (recordsFrom parse limit e).2) := by
  induction h with
  | nil o => rfl
  | cons hp _ ih => rw [recordsFrom_some hprog hp, ih, List.cons_append]

/-- What the loop collected is a chain, and it stopped for a reason. -/
theorem chain_recordsFrom {parse : Nat → Option (ρ × Nat)} {limit : Nat}
    (hprog : Progress parse limit) (o : Nat) :
    Chain parse o (recordsFrom parse limit o).1 (recordsFrom parse limit o).2 ∧
      (parse (recordsFrom parse limit o).2 = none) := by
  -- induction on the bytes left; beyond the limit nothing parses
  generalize hn : limit - o = n
  induction n using Nat.strongRecOn generalizing o with
  | ind n ih =>
      cases hp : parse o with
      | none =>
          rw [recordsFrom_none hp]
          exact ⟨.nil o, hp⟩
      | some ro =>
          obtain ⟨r, o'⟩ := ro
          have ho := hprog _ _ _ hp
          rw [recordsFrom_some hprog hp]
          obtain ⟨hc, hstop⟩ := ih (limit - o') (by omega) o' rfl
          exact ⟨.cons hp hc, hstop⟩

/-- A scan over a chain that ends where the parser fails delivers exactly
the chain. -/
theorem recordsFrom_eq {parse : Nat → Option (ρ × Nat)} {limit o e : Nat}
    {rs : List ρ} (hprog : Progress parse limit) (h : Chain parse o rs e)
    (hstop : parse e = none) : recordsFrom parse limit o = (rs, e) := by
  rw [recordsFrom_chain hprog h, recordsFrom_none hstop, List.append_nil]

end VaultKV.Lib
