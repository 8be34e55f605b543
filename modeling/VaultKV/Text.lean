import VaultKV.Engine.Names

/-!
# Text — words and numbers as the standard libraries read them

The command line and the environment are read with `operator>>`, `getline`,
`std::stoi` and `int()`. In the C locale all of them cut words at the same six
bytes and numbers into an optional sign and decimal digits (`scanInt`); they
differ in what they do with the rest.
-/

namespace VaultKV

open Lib

/-- `isspace` in the C locale. -/
def isSpace (b : UInt8) : Bool := decide (b = 32 ∨ (9 ≤ b ∧ b ≤ 13))

def isDigit (b : UInt8) : Bool := decide (48 ≤ b ∧ b ≤ 57)

/-! ## Numbers -/

/-- An optional sign: whether it is a minus, and what stands behind it. -/
def scanSign : Bytes → Bool × Bytes
  | [] => (false, [])
  | b :: bs => if b = 45 then (true, bs) else if b = 43 then (false, bs) else (false, b :: bs)

/-- A sign and at least one digit: the number, and what stands behind it. -/
def scanInt (b : Bytes) : Option (Int × Bytes) :=
  let (neg, b) := scanSign b
  let digits := b.takeWhile isDigit
  if digits = [] then none
  else
    let n : Int := decimalValue digits
    some (if neg then -n else n, b.dropWhile isDigit)

/-- A number as it is written. -/
def renderInt : Int → Bytes
  | .ofNat n => decimal n
  | .negSucc n => 45 :: decimal (n + 1)

theorem isDigit_of_mem_decimal {n : Nat} {b : UInt8} (h : b ∈ decimal n) : isDigit b = true := by
  have hlow := mem_decimal h
  have hhigh := mem_decimal_lt h
  rw [isDigit, decide_eq_true_eq, UInt8.le_iff_toNat_le, UInt8.le_iff_toNat_le]
  exact ⟨hlow, Nat.le_of_lt_succ hhigh⟩

theorem decimal_ne_nil (n : Nat) : decimal n ≠ [] := by
  rw [decimal]
  split
  · exact List.cons_ne_nil _ _
  · next hn => simpa [Nat.digits_eq_nil_iff_eq_zero] using hn

/-- What stands behind a number does not begin with a digit. -/
def NoDigit (rest : Bytes) : Prop := ∀ b ∈ rest.head?, isDigit b = false

/-- What stands behind a word is nothing, or begins with a space. -/
def Ends (rest : Bytes) : Prop := ∀ b ∈ rest.head?, isSpace b = true

theorem takeWhile_append_of_head {p : UInt8 → Bool} {a rest : Bytes} (ha : ∀ b ∈ a, p b = true)
    (hrest : ∀ b ∈ rest.head?, p b = false) :
    (a ++ rest).takeWhile p = a ∧ (a ++ rest).dropWhile p = rest := by
  rw [List.takeWhile_append_of_pos ha, List.dropWhile_append_of_pos ha]
  cases rest with
  | nil => simp
  | cons b rest =>
      have hb : p b = false := hrest b rfl
      simp [hb]

/-- A number without a sign begins with a digit. -/
theorem scanSign_decimal (m : Nat) (rest : Bytes) :
    scanSign (decimal m ++ rest) = (false, decimal m ++ rest) := by
  cases hm : decimal m with
  | nil => exact absurd hm (decimal_ne_nil m)
  | cons b bs =>
      have hb : 48 ≤ b.toNat := mem_decimal (hm ▸ List.mem_cons_self)
      rw [List.cons_append, scanSign, if_neg (by rintro rfl; revert hb; decide),
        if_neg (by rintro rfl; revert hb; decide)]

/-- **A number is read back**, whatever follows it. -/
theorem scanInt_render (n : Int) {rest : Bytes} (hrest : NoDigit rest) :
    scanInt (renderInt n ++ rest) = some (n, rest) := by
  have hdigits : ∀ m : Nat, (decimal m ++ rest).takeWhile isDigit = decimal m ∧
      (decimal m ++ rest).dropWhile isDigit = rest := fun m =>
    takeWhile_append_of_head (fun b hb => isDigit_of_mem_decimal hb) hrest
  cases n with
  | ofNat m =>
      rw [renderInt, scanInt, scanSign_decimal]
      dsimp only
      rw [(hdigits m).1, (hdigits m).2, if_neg (decimal_ne_nil m), decimalValue_decimal]
      rfl
  | negSucc m =>
      rw [renderInt, scanInt, List.cons_append, scanSign, if_pos rfl]
      dsimp only
      rw [(hdigits (m + 1)).1, (hdigits (m + 1)).2, if_neg (decimal_ne_nil (m + 1)),
        decimalValue_decimal]
      rfl

end VaultKV
