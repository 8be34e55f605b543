import VaultKV.Engine.Model

/-!
# Engine — table file names

A name carries the clock reading and the process-wide counter. The counter
alone keeps the names of one process apart, whatever the clock says
(`sstName_ne`). Readings of ONE width put the names into the order of the
readings, across processes (`sstName_lt`).
-/

namespace VaultKV

open Lib

/-- The number a decimal text denotes. -/
def decimalValue (b : Bytes) : Nat :=
  Nat.ofDigits 10 (b.reverse.map fun d => d.toNat - 48)

theorem toNat_digit {d : Nat} (h : d < 10) : (UInt8.ofNat (48 + d)).toNat = 48 + d := by
  rw [UInt8.toNat_ofNat', Nat.mod_eq_of_lt (by omega)]

theorem decimalValue_decimal (n : Nat) : decimalValue (decimal n) = n := by
  unfold decimal decimalValue
  by_cases hn : n = 0
  · simp [hn]
  · rw [if_neg hn, ← List.map_reverse, List.reverse_reverse, List.map_map]
    have hmap : (Nat.digits 10 n).map ((fun d : UInt8 => d.toNat - 48) ∘
        fun d => UInt8.ofNat (48 + d)) = Nat.digits 10 n := by
      have hid : ∀ d ∈ Nat.digits 10 n, ((fun d : UInt8 => d.toNat - 48) ∘
          fun d => UInt8.ofNat (48 + d)) d = id d := by
        intro d hd
        have hlt : d < 10 := Nat.digits_lt_base (by decide) hd
        simp only [Function.comp_apply, toNat_digit hlt, id_eq]
        omega
      rw [List.map_congr_left hid, List.map_id]
    rw [hmap, Nat.ofDigits_digits]

theorem decimalValue_cons (x : UInt8) (b : Bytes) :
    decimalValue (x :: b) = decimalValue b + 10 ^ b.length * (x.toNat - 48) := by
  rw [decimalValue, List.reverse_cons, List.map_append, Nat.ofDigits_append,
    List.length_map, List.length_reverse]
  simp [decimalValue]

theorem decimalValue_lt {b : Bytes} (h : ∀ x ∈ b, x.toNat < 58) :
    decimalValue b < 10 ^ b.length := by
  induction b with
  | nil => decide
  | cons x b ih =>
      have hx := h x List.mem_cons_self
      have hb := ih fun y hy => h y (List.mem_cons_of_mem _ hy)
      have hmul : 10 ^ b.length * (x.toNat - 48) ≤ 10 ^ b.length * 9 :=
        Nat.mul_le_mul_left _ (by omega)
      rw [decimalValue_cons, List.length_cons, Nat.pow_succ]
      omega

/-- Texts of one width are ordered as their numbers are. -/
theorem lt_of_decimalValue_lt : ∀ {a b : Bytes}, a.length = b.length →
    (∀ x ∈ a, 48 ≤ x.toNat ∧ x.toNat < 58) → (∀ x ∈ b, 48 ≤ x.toNat ∧ x.toNat < 58) →
    decimalValue a < decimalValue b → a < b
  | [], [], _, _, _, h => absurd h (Nat.lt_irrefl _)
  | x :: a, y :: b, hlen, ha, hb, h => by
      have hlen' : a.length = b.length := Nat.succ.inj hlen
      have hx := ha x List.mem_cons_self
      have hy := hb y List.mem_cons_self
      have ha' := fun z hz => ha z (List.mem_cons_of_mem _ hz)
      have hb' := fun z hz => hb z (List.mem_cons_of_mem _ hz)
      rw [decimalValue_cons, decimalValue_cons, hlen'] at h
      rw [List.cons_lt_cons_iff]
      rcases Nat.lt_trichotomy x.toNat y.toNat with hlt | heq | hgt
      · exact Or.inl (UInt8.lt_iff_toNat_lt.mpr hlt)
      · refine Or.inr ⟨UInt8.toNat_inj.mp heq, lt_of_decimalValue_lt hlen' ha' hb' ?_⟩
        rw [heq] at h
        omega
      · -- a larger leading digit outweighs everything behind it
        have hvalue := decimalValue_lt fun z hz => (hb' z hz).2
        have hmul : 10 ^ b.length * (y.toNat - 48 + 1) ≤ 10 ^ b.length * (x.toNat - 48) :=
          Nat.mul_le_mul_left _ (by omega)
        rw [Nat.mul_add, Nat.mul_one] at hmul
        omega

theorem mem_decimal_lt {n : Nat} {b : UInt8} (h : b ∈ decimal n) : b.toNat < 58 := by
  unfold decimal at h
  by_cases hn : n = 0
  · rw [if_pos hn, List.mem_singleton] at h
    rw [h]
    decide
  · rw [if_neg hn] at h
    obtain ⟨d, hd, rfl⟩ := List.mem_map.mp h
    have hlt : d < 10 := Nat.digits_lt_base (by decide) (List.mem_reverse.mp hd)
    rw [toNat_digit hlt]
    omega

theorem mem_decimal {n : Nat} {b : UInt8} (h : b ∈ decimal n) : 48 ≤ b.toNat := by
  unfold decimal at h
  by_cases hn : n = 0
  · rw [if_pos hn, List.mem_singleton] at h
    rw [h]
    decide
  · rw [if_neg hn] at h
    obtain ⟨d, hd, rfl⟩ := List.mem_map.mp h
    have hlt : d < 10 := Nat.digits_lt_base (by decide) (List.mem_reverse.mp hd)
    rw [toNat_digit hlt]
    omega

/-- The counter can be read off a name. -/
theorem sstName_id {n n' i i' : Nat} (h : sstName n i = sstName n' i') : i = i' := by
  unfold sstName at h
  have h1 := List.append_cancel_left h
  have hdash : ∀ m : Nat, ∀ b ∈ decimal m, decide (b ≠ 45) = true := by
    intro m b hb
    have := mem_decimal hb
    simp only [ne_eq, decide_eq_true_eq]
    rintro rfl
    simp at this
  have h2 := congrArg (List.dropWhile fun b => decide (b ≠ (45 : UInt8))) h1
  simp only [List.dropWhile_append_of_pos (hdash _)] at h2
  have h3 : decimal i ++ [46, 115, 115, 116] = decimal i' ++ [46, 115, 115, 116] := by
    simpa using h2
  have h4 := List.append_cancel_right h3
  rw [← decimalValue_decimal i, h4, decimalValue_decimal]

theorem sstName_ne {n n' i i' : Nat} (h : i ≠ i') : sstName n i ≠ sstName n' i' :=
  fun heq => h (sstName_id heq)

theorem append_lt_append_of_length : ∀ {a b : Bytes}, a.length = b.length → a < b →
    ∀ x y, a ++ x < b ++ y
  | [], [], _, h, _, _ => absurd h (lt_irrefl _)
  | a :: as, b :: bs, hlen, h, x, y => by
      rw [List.cons_append, List.cons_append, List.cons_lt_cons_iff]
      rcases List.cons_lt_cons_iff.mp h with h | ⟨heq, h⟩
      · exact Or.inl h
      · exact Or.inr ⟨heq, append_lt_append_of_length (Nat.succ.inj hlen) h x y⟩

/-- **Names of later readings are larger**, if the readings have one
width. -/
theorem sstName_lt {n n' : Nat} (hn : n < n')
    (hwidth : (decimal n).length = (decimal n').length) (i i' : Nat) :
    sstName n i < sstName n' i' := by
  have hdec : decimal n < decimal n' := by
    refine lt_of_decimalValue_lt hwidth (fun x hx => ⟨mem_decimal hx, mem_decimal_lt hx⟩)
      (fun x hx => ⟨mem_decimal hx, mem_decimal_lt hx⟩) ?_
    rw [decimalValue_decimal, decimalValue_decimal]
    exact hn
  unfold sstName
  exact List.append_left_lt (append_lt_append_of_length hwidth hdec _ _)

theorem hasSstExtension_sstName (n i : Nat) : hasSstExtension (sstName n i) = true := by
  have hlen : 4 < (sstName n i).length := by
    simp [sstName]
  have hsuffix : [46, 115, 115, 116].isSuffixOf (sstName n i) = true := by
    rw [List.isSuffixOf_iff_suffix]
    exact ⟨[115, 115, 116, 45] ++ (decimal n ++ ([45] ++ decimal i)), by simp [sstName]⟩
  simp only [hasSstExtension, hlen, hsuffix, decide_true, Bool.and_self]

end VaultKV
