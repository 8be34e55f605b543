import Mathlib

/-!
# Bytes — fixed-width integers and in-place writes on byte strings

The vocabulary every binary format of this development is written in: a
byte string is a `List UInt8`, integers are laid out LITTLE-ENDIAN at a
fixed width (`leBytes`/`leNat`), a field is read back with `slice`, and a
copy into the middle of a buffer is `overwrite`.

The order on byte strings is the lexicographic order of UNSIGNED bytes,
the order `memcmp` gives; it comes from Mathlib's order on lists once
`UInt8` is a linear order.
-/

namespace VaultKV.Lib

/-- A byte string. -/
abbrev Bytes := List UInt8

/-- Unsigned bytes in their usual order, on core's own relations. -/
instance instLinearOrderUInt8 : LinearOrder UInt8 where
  le_refl a := UInt8.le_refl a
  le_trans _ _ _ := UInt8.le_trans
  lt_iff_le_not_ge a b := by
    simp only [UInt8.le_iff_toNat_le, UInt8.lt_iff_toNat_lt]
    omega
  le_antisymm _ _ := UInt8.le_antisymm
  le_total a b := UInt8.le_total a b
  toDecidableLE := fun a b => inferInstanceAs (Decidable (a ≤ b))
  toDecidableEq := fun a b => inferInstanceAs (Decidable (a = b))
  toDecidableLT := fun a b => inferInstanceAs (Decidable (a < b))
  min_def _ _ := rfl
  max_def _ _ := rfl
  compare_eq_compareOfLessAndEq _ _ := rfl

/-! ## Little-endian integers -/

/-- The `n` low bytes of `v`, least significant first. -/
def leBytes : Nat → Nat → Bytes
  | 0, _ => []
  | n + 1, v => UInt8.ofNat v :: leBytes n (v / 256)

/-- The number a little-endian byte string denotes. -/
def leNat : Bytes → Nat
  | [] => 0
  | b :: bs => b.toNat + 256 * leNat bs

@[simp] theorem length_leBytes (n v : Nat) : (leBytes n v).length = n := by
  induction n generalizing v with
  | zero => rfl
  | succ n ih => rw [leBytes, List.length_cons, ih]

/-- Reading back what was written keeps the value modulo the width. -/
theorem leNat_leBytes_mod (n v : Nat) :
    leNat (leBytes n v) = v % 256 ^ n := by
  induction n generalizing v with
  | zero => simp [leBytes, leNat, Nat.mod_one]
  | succ n ih =>
      simp only [leBytes, leNat, ih]
      rw [Nat.pow_succ, Nat.mul_comm (256 ^ n), Nat.mod_mul]
      simp

/-- A value that fits the width is read back exactly. -/
theorem leNat_leBytes {n v : Nat} (h : v < 256 ^ n) :
    leNat (leBytes n v) = v := by
  rw [leNat_leBytes_mod, Nat.mod_eq_of_lt h]

theorem leNat_lt (bs : Bytes) : leNat bs < 256 ^ bs.length := by
  induction bs with
  | nil => simp [leNat]
  | cons b bs ih =>
      have hb := b.toNat_lt
      simp only [leNat, List.length_cons, Nat.pow_succ]
      omega

/-- Every byte string is the encoding of the number it denotes. -/
theorem leBytes_leNat (bs : Bytes) : leBytes bs.length (leNat bs) = bs := by
  induction bs with
  | nil => rfl
  | cons b bs ih =>
      have hb := b.toNat_lt
      have hdiv : (b.toNat + 256 * leNat bs) / 256 = leNat bs := by omega
      have hlow : UInt8.ofNat (b.toNat + 256 * leNat bs) = b := by
        apply UInt8.toNat_inj.mp
        rw [UInt8.toNat_ofNat']
        omega
      rw [List.length_cons, leNat, leBytes, hdiv, hlow, ih]

theorem leNat_injective {a b : Bytes} (hlen : a.length = b.length) (h : leNat a = leNat b) :
    a = b := by
  rw [← leBytes_leNat a, ← leBytes_leNat b, hlen, h]

/-! ## Fields of a buffer -/

/-- The `n` bytes of `l` from `off` on (fewer at the end of `l`). -/
def slice (l : Bytes) (off n : Nat) : Bytes := (l.drop off).take n

/-- The field between two known neighbours. -/
theorem slice_append_mid (a b c : Bytes) :
    slice (a ++ (b ++ c)) a.length b.length = b := by
  simp [slice]

/-- `slice_append_mid` with the lengths as separate numbers. -/
theorem slice_append_of_length {a b c : Bytes} {off n : Nat}
    (ha : a.length = off) (hb : b.length = n) :
    slice (a ++ (b ++ c)) off n = b := by
  subst ha hb
  exact slice_append_mid a b c

/-- A field that ends inside a known front part. -/
theorem slice_append_left {a b : Bytes} {off n : Nat}
    (h : off + n ≤ a.length) : slice (a ++ b) off n = slice a off n := by
  rw [slice, slice, List.drop_append_of_le_length (by omega),
    List.take_append_of_le_length (by rw [List.length_drop]; omega)]

/-- Stepping a cursor over a field: what stands behind it. -/
theorem drop_step {p a b : Bytes} {i n : Nat} (h : p.drop i = a ++ b)
    (ha : a.length = n) : p.drop (i + n) = b := by
  rw [← List.drop_drop, h, List.drop_left' ha]

/-- The field under a cursor. -/
theorem take_step {p a b : Bytes} {i n : Nat} (h : p.drop i = a ++ b)
    (ha : a.length = n) : (p.drop i).take n = a := by
  rw [h, List.take_left' ha]

/-- Cutting a field off under a cursor. -/
theorem drop_cut (p : Bytes) (i n : Nat) : p.drop i = slice p i n ++ p.drop (i + n) := by
  rw [slice, ← List.drop_drop, List.take_append_drop]

theorem length_slice {p : Bytes} {i n : Nat} (h : i + n ≤ p.length) :
    (slice p i n).length = n := by
  rw [slice, List.length_take, List.length_drop]
  omega

/-! ## Copying into a buffer -/

/-- `l` with `b` copied over it from `off` on (`memcpy(l + off, b)`). -/
def overwrite (l : Bytes) (off : Nat) (b : Bytes) : Bytes :=
  l.take off ++ (b ++ l.drop (off + b.length))

theorem length_overwrite {l b : Bytes} {off : Nat}
    (h : off + b.length ≤ l.length) :
    (overwrite l off b).length = l.length := by
  simp only [overwrite, List.length_append, List.length_take, List.length_drop]
  omega

/-- The copied bytes stand at their place. -/
theorem slice_overwrite_self {l b : Bytes} {off : Nat}
    (h : off ≤ l.length) : slice (overwrite l off b) off b.length = b :=
  slice_append_of_length (by rw [List.length_take]; omega) rfl

/-- Nothing in front of the copy changes. -/
theorem take_overwrite {l b : Bytes} {off n : Nat} (h : n ≤ off)
    (hoff : off ≤ l.length) : (overwrite l off b).take n = l.take n := by
  rw [overwrite, List.take_append_of_le_length
    (by rw [List.length_take]; omega), List.take_take, Nat.min_eq_left h]

/-- The copied bytes, and what stands behind them. -/
theorem drop_overwrite_self {l b : Bytes} {off : Nat} (hoff : off ≤ l.length) :
    (overwrite l off b).drop off = b ++ l.drop (off + b.length) := by
  have hlen : (l.take off).length = off := by rw [List.length_take]; omega
  rw [overwrite, List.drop_append_of_le_length (by omega),
    List.drop_eq_nil_of_le (by omega), List.nil_append]

/-- Nothing behind the copy changes. -/
theorem drop_overwrite {l b : Bytes} {off n : Nat} (h : off + b.length ≤ n)
    (hoff : off ≤ l.length) : (overwrite l off b).drop n = l.drop n := by
  have hlen : (l.take off).length = off := by rw [List.length_take]; omega
  have hfront : (l.take off ++ b).drop n = [] :=
    List.drop_eq_nil_of_le (by rw [List.length_append, hlen]; exact h)
  rw [overwrite, ← List.append_assoc, List.drop_append, hfront,
    List.nil_append, List.drop_drop, List.length_append, hlen]
  congr 1
  omega

/-! ## One changed byte -/

/-- A field the change is not in. -/
theorem field_set_of_outside {p : Bytes} {j k n : Nat} (b : UInt8) (h : j < k ∨ k + n ≤ j) :
    ((p.set j b).drop k).take n = (p.drop k).take n := by
  rw [List.drop_set]
  rcases h with h | h
  · rw [if_pos h]
  · rw [if_neg (by omega), List.take_set, List.set_eq_of_length_le]
    rw [List.length_take]
    omega

/-- A field the change is in. -/
theorem field_set_of_inside {p : Bytes} {j k n : Nat} (b : UInt8) (h : k ≤ j) :
    ((p.set j b).drop k).take n = ((p.drop k).take n).set (j - k) b := by
  rw [List.drop_set, if_neg (by omega), List.take_set]

theorem set_ne {p : Bytes} {j : Nat} {b : UInt8} (hj : j < p.length) (h : p[j]? ≠ some b) :
    p.set j b ≠ p := by
  intro heq
  refine h ?_
  rw [← heq, List.getElem?_set_self hj]

theorem getElem?_field {p : Bytes} {j k n : Nat} (hk : k ≤ j) (hn : j < k + n) :
    ((p.drop k).take n)[j - k]? = p[j]? := by
  rw [List.getElem?_take_of_lt (by omega), List.getElem?_drop, Nat.add_sub_cancel' hk]

/-- A field the change is in is another one. -/
theorem slice_set_ne {p : Bytes} {j k n : Nat} {b : UInt8} (hj : j < p.length) (hk : k ≤ j)
    (hn : j < k + n) (h : p[j]? ≠ some b) : slice (p.set j b) k n ≠ slice p k n := by
  rw [slice, slice, field_set_of_inside b hk]
  refine set_ne ?_ ?_
  · rw [List.length_take, List.length_drop]
    omega
  · rw [getElem?_field hk hn]
    exact h

end VaultKV.Lib
