import VaultKV.Lib.Bytes

/-!
# Fields — length-prefixed fields under a cursor

A decoder that walks over a buffer reads a length, checks it against the
buffer and cuts the bytes out; an encoder writes the length and the bytes.
`FieldAt` is what the two have in common: this field stands at this offset.
The rules say how a decoder comes to know it (`fieldAt_cut`), how an encoder
does (`FieldAt.of_append`), and what it means for each of them.
-/

namespace VaultKV.Lib

/-- `m` stands at `i` in `p`, behind its length in `w` bytes. -/
structure FieldAt (w : Nat) (p : Bytes) (i : Nat) (m : Bytes) : Prop where
  fits : m.length < 256 ^ w
  inside : i + w + m.length ≤ p.length
  here : p.drop i = leBytes w m.length ++ (m ++ p.drop (i + w + m.length))

namespace FieldAt

variable {w i : Nat} {p m rest : Bytes}

/-- What an encoder wrote at `i` stands there. -/
theorem of_append (h : p.drop i = leBytes w m.length ++ (m ++ rest)) (hi : i ≤ p.length)
    (hm : m.length < 256 ^ w) : FieldAt w p i m := by
  have hlen := congrArg List.length h
  simp only [List.length_drop, List.length_append, length_leBytes] at hlen
  have hrest : p.drop (i + w + m.length) = rest :=
    drop_step (drop_step h (length_leBytes w _)) rfl
  exact ⟨hm, by omega, by rw [hrest, h]⟩

/-- The length in front of the field. -/
theorem length_eq (h : FieldAt w p i m) : leNat (slice p i w) = m.length := by
  rw [slice, take_step h.here (length_leBytes w _), leNat_leBytes h.fits]

/-- The bytes behind the length. -/
theorem slice_eq (h : FieldAt w p i m) : slice p (i + w) m.length = m :=
  take_step (drop_step h.here (length_leBytes w _)) rfl

/-- A field that ends the buffer. -/
theorem last (h : FieldAt w p i m) (hend : p.length ≤ i + w + m.length) :
    p.drop i = leBytes w m.length ++ m := by
  have hrest : p.drop (i + w + m.length) = [] := List.drop_eq_nil_of_le hend
  rw [h.here, hrest, List.append_nil]

end FieldAt

/-- An integer under a cursor is the encoding of what is read there. -/
theorem drop_leNat {p : Bytes} {i w : Nat} (h : i + w ≤ p.length) :
    p.drop i = leBytes w (leNat (slice p i w)) ++ p.drop (i + w) := by
  have hfield := leBytes_leNat (slice p i w)
  rw [length_slice h] at hfield
  rw [hfield]
  exact drop_cut p i w

/-- What a decoder cuts out behind a length that it checked stands there. -/
theorem fieldAt_cut {p : Bytes} {i w : Nat} (h : i + w + leNat (slice p i w) ≤ p.length) :
    FieldAt w p i (slice p (i + w) (leNat (slice p i w))) := by
  have hlen := length_slice h
  have hw : (slice p i w).length = w := length_slice (by omega)
  refine ⟨?_, by omega, ?_⟩
  · rw [hlen]
    simpa only [hw] using leNat_lt (slice p i w)
  · rw [hlen, ← drop_cut, ← drop_leNat (by omega)]

end VaultKV.Lib
