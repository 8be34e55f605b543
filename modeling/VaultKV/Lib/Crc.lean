import Mathlib

/-!
# Crc — reflected checksum registers of any width

A register takes the message one bit at a time, lowest bit of a byte first:
it shifts down, and where the bit that falls out differs from the bit that
comes in the polynomial is mixed in (`feed`). Without a message the same is
a `shift`.

Shifts are LINEAR (`shift_xor`), and a register whose low bits are clear only
moves down (`shift_iterate_clear`). Two facts follow for every width and
polynomial: `n` bits can be mixed in at once before `n` shifts (`feed_bits`),
and `n` shifts depend on the low `n` bits and otherwise move the register
down, so a table of the low bits will do (`shift_iterate_lookup`).
-/

namespace VaultKV.Lib.Crc

variable {w : Nat} {poly : BitVec w}

/-- One shift of the register. -/
def shift (poly c : BitVec w) : BitVec w := (if c.getLsbD 0 then poly else 0#w) ^^^ (c >>> 1)

/-- One bit of the message. -/
def feed (poly c : BitVec w) (bit : Bool) : BitVec w :=
  (if c.getLsbD 0 ^^ bit then poly else 0#w) ^^^ (c >>> 1)

/-- The bits of a byte, lowest first. -/
def bitsOf (b : UInt8) : List Bool := (List.range 8).map b.toNat.testBit

/-- The checksum of a message, bit by bit. -/
def ofBits (poly init final : BitVec w) (bits : List Bool) : BitVec w :=
  bits.foldl (feed poly) init ^^^ final

/-! ## Linearity -/

theorem ite_xor_ite (poly : BitVec w) (a b : Bool) :
    (if a ^^ b then poly else 0#w) = (if a then poly else 0#w) ^^^ (if b then poly else 0#w) := by
  cases a <;> cases b <;> simp

theorem shift_xor (x y : BitVec w) :
    shift poly (x ^^^ y) = shift poly x ^^^ shift poly y := by
  simp only [shift, BitVec.getLsbD_xor, BitVec.ushiftRight_xor_distrib, ite_xor_ite]
  ac_rfl

theorem shift_iterate_xor (n : Nat) (x y : BitVec w) :
    (shift poly)^[n] (x ^^^ y) = (shift poly)^[n] x ^^^ (shift poly)^[n] y := by
  induction n generalizing x y with
  | zero => rfl
  | succ n ih => simp only [Function.iterate_succ_apply, shift_xor, ih]

/-- A register whose low bits are clear only moves down. -/
theorem shift_iterate_clear {y : BitVec w} {n : Nat} (hy : ∀ i < n, y.getLsbD i = false) :
    (shift poly)^[n] y = y >>> n := by
  induction n with
  | zero => simp
  | succ n ih =>
      have hlow : (y >>> n).getLsbD 0 = false := by
        rw [BitVec.getLsbD_ushiftRight, Nat.add_zero]
        exact hy n (Nat.lt_succ_self n)
      rw [Function.iterate_succ_apply', ih fun i hi => hy i (Nat.lt_succ_of_lt hi), shift, hlow,
        BitVec.shiftRight_add]
      simp

/-! ## Bits mixed in at once -/

/-- A bit that is mixed in already falls out with the register's own. -/
theorem feed_xor (x u : BitVec w) :
    feed poly (x ^^^ u) (u.getLsbD 0) = shift poly x ^^^ (u >>> 1) := by
  rw [feed, shift, BitVec.getLsbD_xor, Bool.xor_assoc, Bool.xor_self, Bool.xor_false,
    BitVec.ushiftRight_xor_distrib, BitVec.xor_assoc]

/-- **The low `n` bits of `v` at once**: they are mixed in before `n` shifts;
what `v` has above them is still there. -/
theorem feed_bits (c v : BitVec w) (n : Nat) :
    ((List.range n).map v.getLsbD).foldl (feed poly) c
      = (shift poly)^[n] (c ^^^ v) ^^^ (v >>> n) := by
  induction n with
  | zero => simp
  | succ n ih =>
      have hbit : v.getLsbD n = (v >>> n).getLsbD 0 := by
        rw [BitVec.getLsbD_ushiftRight, Nat.add_zero]
      rw [List.range_succ, List.map_append, List.foldl_append, ih, List.map_singleton,
        List.foldl_cons, List.foldl_nil, hbit, feed_xor, Function.iterate_succ_apply',
        BitVec.shiftRight_add]

/-- A byte, when the register is at least as wide. -/
theorem feed_byte (hw : 8 ≤ w) (c : BitVec w) (b : UInt8) :
    (bitsOf b).foldl (feed poly) c = (shift poly)^[8] (c ^^^ BitVec.ofNat w b.toNat) := by
  have hbits : bitsOf b = (List.range 8).map (BitVec.ofNat w b.toNat).getLsbD := by
    apply List.map_congr_left
    intro i hi
    have hlt : i < w := lt_of_lt_of_le (List.mem_range.mp hi) hw
    rw [BitVec.getLsbD_ofNat, decide_eq_true hlt, Bool.true_and]
  have hnone : (BitVec.ofNat w b.toNat) >>> 8 = 0#w := by
    apply BitVec.eq_of_getLsbD_eq
    intro i _
    have hbyte : b.toNat.testBit (8 + i) = false := by
      apply Nat.testBit_lt_two_pow
      calc b.toNat < 2 ^ 8 := b.toNat_lt
        _ ≤ 2 ^ (8 + i) := Nat.pow_le_pow_right (by decide) (by omega)
    simp [BitVec.getLsbD_ushiftRight, BitVec.getLsbD_ofNat, hbyte]
  rw [hbits, feed_bits, hnone, BitVec.xor_zero]

/-! ## A table of the low bits -/

/-- **`n` shifts by table**: the entry for the low `n` bits, and the rest moved
down. -/
theorem shift_iterate_lookup {n : Nat} {mask : BitVec w}
    (hmask : ∀ i < w, mask.getLsbD i = decide (i < n)) (x : BitVec w) :
    (shift poly)^[n] x = (shift poly)^[n] (x &&& mask) ^^^ (x >>> n) := by
  have hsplit : x = (x &&& mask) ^^^ (x &&& ~~~mask) := by
    apply BitVec.eq_of_getLsbD_eq
    intro i hi
    simp only [BitVec.getLsbD_xor, BitVec.getLsbD_and, BitVec.getLsbD_not]
    cases x.getLsbD i <;> cases mask.getLsbD i <;> simp [hi]
  have hclear : ∀ i < n, (x &&& ~~~mask).getLsbD i = false := by
    intro i hi
    by_cases hw : i < w
    · simp [BitVec.getLsbD_and, BitVec.getLsbD_not, hmask i hw, hi]
    · exact BitVec.getLsbD_of_ge _ i (Nat.not_lt.mp hw)
  have hrest : (x &&& ~~~mask) >>> n = x >>> n := by
    apply BitVec.eq_of_getLsbD_eq
    intro i _
    simp only [BitVec.getLsbD_ushiftRight, BitVec.getLsbD_and, BitVec.getLsbD_not]
    by_cases hw : n + i < w
    · rw [hmask _ hw]
      simp [hw]
    · simp [BitVec.getLsbD_of_ge x (n + i) (Nat.not_lt.mp hw)]
  calc (shift poly)^[n] x
      = (shift poly)^[n] (x &&& mask) ^^^ (shift poly)^[n] (x &&& ~~~mask) := by
        rw [← shift_iterate_xor, ← hsplit]
    _ = (shift poly)^[n] (x &&& mask) ^^^ (x >>> n) := by
        rw [shift_iterate_clear hclear, hrest]

/-! ## Nothing is lost -/

/-- The bit that falls out stands at the top, when the polynomial has its
top bit. -/
theorem getLsbD_shift_top (hpoly : poly.getLsbD (w - 1) = true) (c : BitVec w) :
    (shift poly c).getLsbD (w - 1) = c.getLsbD 0 := by
  rw [shift, BitVec.getLsbD_xor, BitVec.getLsbD_ushiftRight,
    BitVec.getLsbD_of_ge c (1 + (w - 1)) (by omega), Bool.xor_false]
  cases c.getLsbD 0 <;> simp [hpoly]

theorem shift_injective (hpoly : poly.getLsbD (w - 1) = true) :
    Function.Injective (shift poly) := by
  intro x y h
  have hbit : x.getLsbD 0 = y.getLsbD 0 := by
    rw [← getLsbD_shift_top hpoly x, h, getLsbD_shift_top hpoly y]
  have hrest : x >>> 1 = y >>> 1 := by
    rw [shift, shift, hbit] at h
    exact BitVec.xor_right_inj _ |>.mp h
  apply BitVec.eq_of_getLsbD_eq
  intro i _
  cases i with
  | zero => exact hbit
  | succ i =>
      have hi := congrArg (fun z : BitVec w => z.getLsbD i) hrest
      simpa [BitVec.getLsbD_ushiftRight, Nat.add_comm] using hi

end VaultKV.Lib.Crc
