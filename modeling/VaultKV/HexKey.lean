import VaultKV.Crypto

/-!
# HexKey — the encryption key of the environment (`util.cpp`, `main.cpp`)

`parse_hex_key` writes each byte of the key as soon as it has read its two
digits, INTO THE CALLER'S ARRAY, and may stop at any of the 32 pairs. What it
accepts and what it then holds is as one expects (`parseHexKey_accepts`,
`parseHexKey_spelled`). What it leaves behind when it stops is the pairs in
front of the bad one, over the old key.
-/

namespace VaultKV

open Lib

/-! ## `parse_hex_key` and `bytes_to_hex` -/

/-- `hex_to_nibble`. -/
def hexToNibble (c : UInt8) : Int :=
  if 48 ≤ c.toNat ∧ c.toNat ≤ 57 then c.toNat - 48
  else if 97 ≤ c.toNat ∧ c.toNat ≤ 102 then 10 + (c.toNat - 97)
  else if 65 ≤ c.toNat ∧ c.toNat ≤ 70 then 10 + (c.toNat - 65)
  else -1

theorem ByteArr.ext {n : Nat} {a b : ByteArr n} (h : a.bytes = b.bytes) : a = b := by
  cases a
  cases b
  cases h
  rfl

/-- `(*out)[i] = b`. -/
def ByteArr.set {n : Nat} (a : ByteArr n) (i : Nat) (b : UInt8) : ByteArr n :=
  ⟨a.bytes.set i b, by rw [List.length_set, a.length_eq]⟩

/-- The two nibbles of pair `i`. -/
def nibblesAt (hex : Bytes) (i : Nat) : Int × Int :=
  (hexToNibble (hex.getD (2 * i) 0), hexToNibble (hex.getD (2 * i + 1) 0))

/-- `static_cast<uint8_t>((hi << 4) | lo)`. -/
def joinNibbles (p : Int × Int) : UInt8 := UInt8.ofNat (p.1.toNat <<< 4 ||| p.2.toNat)

/-- The loop of `parse_hex_key` with `n` rounds to go. -/
def parseHexFrom (hex : Bytes) : Nat → Nat → ByteArr 32 → Bool × ByteArr 32
  | 0, _, out => (true, out)
  | n + 1, i, out =>
      if (nibblesAt hex i).1 < 0 ∨ (nibblesAt hex i).2 < 0 then (false, out)
      else parseHexFrom hex n (i + 1) (out.set i (joinNibbles (nibblesAt hex i)))

/-- `parse_hex_key`. -/
def parseHexKey (hex : Bytes) (out : ByteArr 32) : Bool × ByteArr 32 :=
  if hex.length ≠ 64 then (false, out) else parseHexFrom hex 32 0 out

/-- `<< std::hex << std::setw(2) << std::setfill('0')` of a number. -/
def putHex (b : UInt8) : Bytes :=
  let digits := (Nat.toDigits 16 b.toNat).map fun c => UInt8.ofNat c.toNat
  List.replicate (2 - digits.length) 48 ++ digits

/-- `bytes_to_hex`. -/
def bytesToHex (data : Bytes) : Bytes := data.flatMap putHex

/-- What `parse_options` does with `VAULTKV_KEY_HEX`: the key the engine gets,
and what goes to `std::cerr`. -/
def parseOptionsKey (keyEnv : Option Bytes) : ByteArr 32 × List String :=
  match keyEnv with
  | none => (zeroKey, [])
  | some hex =>
      let r := parseHexKey hex zeroKey
      (r.2, if r.1 then [] else ["warning: invalid VAULTKV_KEY_HEX; using zero key\n"])

/-! ## Digits -/

/-- A hexadecimal digit, in either case. -/
def IsHexDigit (c : UInt8) : Prop :=
  (48 ≤ c.toNat ∧ c.toNat ≤ 57) ∨ (97 ≤ c.toNat ∧ c.toNat ≤ 102) ∨
    (65 ≤ c.toNat ∧ c.toNat ≤ 70)

instance (c : UInt8) : Decidable (IsHexDigit c) := inferInstanceAs (Decidable (_ ∨ _ ∨ _))

/-- A letter in lower case. -/
def toLower (c : UInt8) : UInt8 := if 65 ≤ c.toNat ∧ c.toNat ≤ 90 then c + 32 else c

/-- The digit for a number below sixteen. -/
def lowDigit (d : Nat) : UInt8 := UInt8.ofNat (if d < 10 then 48 + d else 87 + d)

theorem hexToNibble_neg_iff (c : UInt8) : hexToNibble c < 0 ↔ ¬ IsHexDigit c := by
  unfold hexToNibble IsHexDigit
  split_ifs <;> omega

/-- What holds of all 256 numbers below 256 holds of every byte. -/
theorem byte_forall {P : UInt8 → Prop} (h : ∀ n < 256, P (UInt8.ofNat n)) (c : UInt8) : P c := by
  have hc := h c.toNat c.toNat_lt
  rwa [UInt8.ofNat_toNat] at hc

/-- A digit's value, and the digit back from it. -/
theorem hexToNibble_of_digit {c : UInt8} (h : IsHexDigit c) :
    (hexToNibble c).toNat < 16 ∧ lowDigit (hexToNibble c).toNat = toLower c := by
  have hall := byte_forall (P := fun c => IsHexDigit c →
    (hexToNibble c).toNat < 16 ∧ lowDigit (hexToNibble c).toNat = toLower c) (by decide +kernel)
  exact hall c h

/-- The two digits of a byte come out as they went in. -/
theorem putHex_joinNibbles {hi lo : UInt8} (hhi : IsHexDigit hi) (hlo : IsHexDigit lo) :
    putHex (joinNibbles (hexToNibble hi, hexToNibble lo)) = [toLower hi, toLower lo] := by
  have hall : ∀ a < 16, ∀ b < 16,
      putHex (UInt8.ofNat (a <<< 4 ||| b)) = [lowDigit a, lowDigit b] := by
    decide +kernel
  obtain ⟨ha, hspellA⟩ := hexToNibble_of_digit hhi
  obtain ⟨hb, hspellB⟩ := hexToNibble_of_digit hlo
  rw [joinNibbles, hall _ ha _ hb, hspellA, hspellB]

/-! ## The loop -/

/-- Both characters of pair `i` are digits. -/
def PairOk (hex : Bytes) (i : Nat) : Prop :=
  IsHexDigit (hex.getD (2 * i) 0) ∧ IsHexDigit (hex.getD (2 * i + 1) 0)

instance (hex : Bytes) (i : Nat) : Decidable (PairOk hex i) :=
  inferInstanceAs (Decidable (_ ∧ _))

/-- The byte that pair `i` spells. -/
def pairByte (hex : Bytes) (i : Nat) : UInt8 := joinNibbles (nibblesAt hex i)

theorem nibblesAt_neg_iff (hex : Bytes) (i : Nat) :
    ((nibblesAt hex i).1 < 0 ∨ (nibblesAt hex i).2 < 0) ↔ ¬ PairOk hex i := by
  rw [nibblesAt, PairOk, hexToNibble_neg_iff, hexToNibble_neg_iff]
  tauto

/-- A round with a good pair writes it; a round with a bad one stops. -/
theorem parseHexFrom_succ (hex : Bytes) (n i : Nat) (out : ByteArr 32) :
    parseHexFrom hex (n + 1) i out =
      if PairOk hex i then parseHexFrom hex n (i + 1) (out.set i (pairByte hex i))
      else (false, out) := by
  rw [parseHexFrom]
  by_cases hok : PairOk hex i
  · rw [if_pos hok, if_neg (fun hneg => (nibblesAt_neg_iff hex i).mp hneg hok)]
    rfl
  · rw [if_neg hok, if_pos ((nibblesAt_neg_iff hex i).mpr hok)]

theorem parseHexFrom_fst (hex : Bytes) (n : Nat) : ∀ (i : Nat) (out : ByteArr 32),
    (parseHexFrom hex n i out).1 = true ↔ ∀ j, i ≤ j → j < i + n → PairOk hex j := by
  induction n with
  | zero =>
      intro i out
      refine iff_of_true rfl fun j hlo hhi => ?_
      omega
  | succ n ih =>
      intro i out
      rw [parseHexFrom_succ]
      by_cases hok : PairOk hex i
      · rw [if_pos hok, ih]
        constructor
        · intro hall j hlo hhi
          rcases Nat.eq_or_lt_of_le hlo with rfl | hlo
          · exact hok
          · exact hall j hlo (by omega)
        · intro hall j hlo hhi
          exact hall j (by omega) (by omega)
      · rw [if_neg hok]
        refine iff_of_false Bool.false_ne_true fun hall => ?_
        exact hok (hall i (Nat.le_refl i) (by omega))

/-- **What the loop leaves behind**, accepted or not: byte `k` is the one
pair `k` spells if the loop came past it, and what it was otherwise. -/
theorem parseHexFrom_getElem? (hex : Bytes) (n : Nat) : ∀ (i : Nat) (out : ByteArr 32),
    i + n ≤ 32 → ∀ k, (parseHexFrom hex n i out).2.bytes[k]? =
      if i ≤ k ∧ k < i + n ∧ ∀ j ≤ k, i ≤ j → PairOk hex j then some (pairByte hex k)
      else out.bytes[k]? := by
  induction n with
  | zero =>
      intro i out _ k
      rw [if_neg (by omega)]
      rfl
  | succ n ih =>
      intro i out hle k
      rw [parseHexFrom_succ]
      by_cases hok : PairOk hex i
      · rw [if_pos hok, ih (i + 1) _ (by omega)]
        have hset : (out.set i (pairByte hex i)).bytes[k]?
            = if i = k then some (pairByte hex i) else out.bytes[k]? := by
          have hlen := out.length_eq
          rw [ByteArr.set, List.getElem?_set]
          split
          · rw [if_pos (by omega)]
          · rfl
        rw [hset]
        by_cases hk : i = k
        · subst hk
          rw [if_neg (by omega), if_pos rfl, if_pos]
          refine ⟨Nat.le_refl i, by omega, fun j hj hi => ?_⟩
          rwa [Nat.le_antisymm hj hi]
        · rw [if_neg hk]
          -- past pair `i` the two conditions say the same
          refine if_congr ⟨?_, ?_⟩ rfl rfl
          · rintro ⟨hlo, hhi, hall⟩
            refine ⟨by omega, by omega, fun j hj hi => ?_⟩
            rcases Nat.eq_or_lt_of_le hi with rfl | hi
            · exact hok
            · exact hall j hj hi
          · rintro ⟨hlo, hhi, hall⟩
            exact ⟨by omega, by omega, fun j hj hi => hall j hj (by omega)⟩
      · rw [if_neg hok, if_neg]
        rintro ⟨hlo, -, hall⟩
        exact hok (hall i hlo (Nat.le_refl i))

/-- After an accepted length, byte `k` is the one pair `k` spells if no pair
up to `k` is bad, and the old byte otherwise. -/
theorem parseHexKey_getElem? {hex : Bytes} (hlen : hex.length = 64) (key : ByteArr 32) (k : Nat) :
    (parseHexKey hex key).2.bytes[k]? =
      if k < 32 ∧ ∀ j ≤ k, PairOk hex j then some (pairByte hex k) else key.bytes[k]? := by
  have hloop := parseHexFrom_getElem? hex 32 0 key (Nat.le_refl 32) k
  simpa [parseHexKey, hlen] using hloop

/-! ## What is accepted -/

/-- The characters of the pairs are the characters of the string. -/
theorem pairs_ok_iff {hex : Bytes} (hlen : hex.length = 64) :
    (∀ j < 32, PairOk hex j) ↔ ∀ c ∈ hex, IsHexDigit c := by
  constructor
  · intro hpairs c hc
    obtain ⟨k, hk, rfl⟩ := List.mem_iff_getElem.mp hc
    have hpair := hpairs (k / 2) (by omega)
    -- character `k` is the first or the second of its pair
    rcases Nat.even_or_odd' k with ⟨j, rfl | rfl⟩
    · have hdigit := hpair.1
      rwa [show 2 * (2 * j / 2) = 2 * j by omega, List.getD_eq_getElem _ _ hk] at hdigit
    · have hdigit := hpair.2
      rwa [show 2 * ((2 * j + 1) / 2) + 1 = 2 * j + 1 by omega,
        List.getD_eq_getElem _ _ hk] at hdigit
  · intro hall j hj
    have hget : ∀ k < 64, IsHexDigit (hex.getD k 0) := by
      intro k hk
      rw [List.getD_eq_getElem _ _ (by omega)]
      exact hall _ (List.getElem_mem _)
    exact ⟨hget _ (by omega), hget _ (by omega)⟩

theorem parseHexKey_accepts (hex : Bytes) (key : ByteArr 32) :
    (parseHexKey hex key).1 = true ↔ hex.length = 64 ∧ ∀ c ∈ hex, IsHexDigit c := by
  by_cases hlen : hex.length = 64
  · rw [← pairs_ok_iff hlen]
    simpa [parseHexKey, hlen] using parseHexFrom_fst hex 32 0 key
  · simp [parseHexKey, hlen]

/-- Two by two through `2 * n` places. -/
theorem flatMap_range_pairs {α : Type} (f : Nat → α) (n : Nat) :
    (List.range n).flatMap (fun i => [f (2 * i), f (2 * i + 1)])
      = (List.range (2 * n)).map f := by
  induction n with
  | zero => rfl
  | succ n ih =>
      rw [List.range_succ, List.flatMap_append, ih, show 2 * (n + 1) = 2 * n + 1 + 1 by omega,
        List.range_succ, List.range_succ]
      simp

/-- The key that an accepted string gives, and none of the old one. -/
theorem parseHexKey_bytes {hex : Bytes} {key : ByteArr 32} (h : (parseHexKey hex key).1 = true) :
    (parseHexKey hex key).2.bytes = (List.range 32).map (pairByte hex) := by
  obtain ⟨hlen, hall⟩ := (parseHexKey_accepts hex key).mp h
  have hpairs := (pairs_ok_iff hlen).mpr hall
  apply List.ext_getElem?
  intro k
  rw [parseHexKey_getElem? hlen]
  by_cases hk : k < 32
  · rw [if_pos ⟨hk, fun j hj => hpairs j (by omega)⟩]
    simp [hk]
  · have hold := key.length_eq
    rw [if_neg (fun hc => hk hc.1)]
    simp only [List.getElem?_map]
    rw [List.getElem?_eq_none (by omega), List.getElem?_eq_none (by simpa using hk)]
    rfl

/-- Written out again, an accepted string is itself in lower case. -/
theorem parseHexKey_spelled {hex : Bytes} {key : ByteArr 32}
    (h : (parseHexKey hex key).1 = true) :
    bytesToHex (parseHexKey hex key).2.bytes = hex.map toLower := by
  obtain ⟨hlen, hall⟩ := (parseHexKey_accepts hex key).mp h
  have hpairs := (pairs_ok_iff hlen).mpr hall
  have hspell : ∀ j ∈ List.range 32, putHex (pairByte hex j)
      = [toLower (hex.getD (2 * j) 0), toLower (hex.getD (2 * j + 1) 0)] := by
    intro j hj
    obtain ⟨hhi, hlo⟩ := hpairs j (List.mem_range.mp hj)
    exact putHex_joinNibbles hhi hlo
  have hchars : (List.range (2 * 32)).map (fun k => toLower (hex.getD k 0)) = hex.map toLower := by
    apply List.ext_getElem
    · simp [hlen]
    · intro k hk _
      have hk' : k < hex.length := by simpa [hlen] using hk
      simp [hk']
  calc bytesToHex (parseHexKey hex key).2.bytes
      = (List.range 32).flatMap (fun j => putHex (pairByte hex j)) := by
        rw [parseHexKey_bytes h, bytesToHex, List.flatMap_map]
    _ = (List.range 32).flatMap
          (fun j => [toLower (hex.getD (2 * j) 0), toLower (hex.getD (2 * j + 1) 0)]) :=
        List.flatMap_congr hspell
    _ = hex.map toLower := by
        rw [flatMap_range_pairs (fun k => toLower (hex.getD k 0)), hchars]

/-! ## What a rejected string leaves behind -/

/-- Nothing that is written before the loop stops differs from what is there:
the length is wrong, or every pair in front of the first bad one spells the
byte of the old key. -/
def Harmless (hex : Bytes) (key : ByteArr 32) : Prop :=
  hex.length ≠ 64 ∨
    ∀ k < 32, (∀ j ≤ k, PairOk hex j) → key.bytes[k]? = some (pairByte hex k)

instance (hex : Bytes) (key : ByteArr 32) : Decidable (Harmless hex key) :=
  inferInstanceAs (Decidable (_ ∨ _))

theorem parseHexKey_unchanged_iff (hex : Bytes) (key : ByteArr 32) :
    (parseHexKey hex key).2 = key ↔ Harmless hex key := by
  by_cases hlen : hex.length = 64
  · constructor
    · intro hsame
      refine .inr fun k hk hpairs => ?_
      have hget := parseHexKey_getElem? hlen key k
      rwa [hsame, if_pos ⟨hk, hpairs⟩] at hget
    · intro hharm
      have hold := hharm.resolve_left (fun hne => hne hlen)
      apply ByteArr.ext
      apply List.ext_getElem?
      intro k
      rw [parseHexKey_getElem? hlen]
      split
      · rename_i hpast
        exact (hold k hpast.1 hpast.2).symm
      · rfl
  · exact iff_of_true (by simp [parseHexKey, hlen]) (.inl hlen)

/-- **The key of the environment.** A string is accepted exactly when it is 64
hexadecimal digits, and the key then spells it in lower case. A rejected one
leaves the key as it was exactly when it is `Harmless`; so the engine runs with
the zero key the warning speaks of only if the length is wrong or nothing but
`00` stands in front of the first bad pair. -/
theorem parseHexKey_rejected_unchanged_iff (hex : Bytes) (key : ByteArr 32) :
    ((parseHexKey hex key).1 = true ↔ hex.length = 64 ∧ ∀ c ∈ hex, IsHexDigit c) ∧
    ((parseHexKey hex key).1 = true →
      bytesToHex (parseHexKey hex key).2.bytes = hex.map toLower) ∧
    ((parseHexKey hex key).1 = false → ((parseHexKey hex key).2 = key ↔ Harmless hex key)) ∧
    ((parseOptionsKey (some hex)).2 ≠ [] →
      ((parseOptionsKey (some hex)).1 = zeroKey ↔ Harmless hex zeroKey)) :=
  ⟨parseHexKey_accepts hex key, parseHexKey_spelled,
    fun _ => parseHexKey_unchanged_iff hex key,
    fun _ => parseHexKey_unchanged_iff hex zeroKey⟩

/-- `zz` and 62 zeros: rejected at the first pair, so the zero key stays. -/
theorem firstPair_rejected_unchanged :
    (parseOptionsKey (some ([122, 122] ++ List.replicate 62 48))).2
        = ["warning: invalid VAULTKV_KEY_HEX; using zero key\n"] ∧
      (parseOptionsKey (some ([122, 122] ++ List.replicate 62 48))).1 = zeroKey := by
  have hwarned : (parseOptionsKey (some ([122, 122] ++ List.replicate 62 48))).2
      = ["warning: invalid VAULTKV_KEY_HEX; using zero key\n"] := by decide +kernel
  have hharm : Harmless ([122, 122] ++ List.replicate 62 48) zeroKey := by decide +kernel
  have hkey := parseHexKey_rejected_unchanged_iff ([122, 122] ++ List.replicate 62 48) zeroKey
  exact ⟨hwarned, (hkey.2.2.2 (by rw [hwarned]; simp)).mpr hharm⟩

/-- `ffzz` and sixty zeros. -/
def halfKey : Bytes := [102, 102, 122, 122] ++ List.replicate 60 48

/-- The first pair of `halfKey` is in the key when the second is found bad:
the string is rejected, the warning says `using zero key`, and the engine gets
a key that starts with `0xff`. -/
theorem halfKey_changes_key :
    (parseHexKey halfKey zeroKey).1 = false ∧ (parseHexKey halfKey zeroKey).2 ≠ zeroKey ∧
      (parseOptionsKey (some halfKey)).2
        = ["warning: invalid VAULTKV_KEY_HEX; using zero key\n"] ∧
      (parseOptionsKey (some halfKey)).1.bytes = 0xff :: List.replicate 31 0 := by
  have hrejected : (parseHexKey halfKey zeroKey).1 = false := by decide +kernel
  have hleft : (parseHexKey halfKey zeroKey).2.bytes = 0xff :: List.replicate 31 0 := by
    decide +kernel
  have hwarned : (parseOptionsKey (some halfKey)).2
      = ["warning: invalid VAULTKV_KEY_HEX; using zero key\n"] := by decide +kernel
  refine ⟨hrejected, fun hsame => ?_, hwarned, hleft⟩
  rw [hsame] at hleft
  exact absurd hleft (by decide +kernel)

end VaultKV
