import VaultKV.Util
import VaultKV.Lib.Access

/-!
# Machine — sums and loads as the source computes them

The models compute lengths and offsets in `Nat` and cut fields out of lists.
Where it matters WHICH bytes the source touches, it is written a second time
with the sums of its own integer types and with loads that are recorded
(`Lib.Access`). This module has what those twins share.
-/

namespace VaultKV

open Lib Lib.Traced

/-! ## Machine sums -/

/-- `a + b` in `int`. -/
def addInt (a b : Int) : Int := Int.bmod (a + b) (2 ^ 32)

/-- `static_cast<size_t>` of an `int`. -/
def sizeT (a : Int) : Nat := (a % 2 ^ 64).toNat

/-- `a + b` in `uint32_t`. -/
def addU32 (a b : Nat) : Nat := (a + b) % 2 ^ 32

theorem addInt_natCast {a b : Nat} (h : a + b < 2 ^ 31) :
    addInt a b = ((a + b : Nat) : Int) := by
  rw [addInt, Int.bmod_eq_of_le] <;> omega

theorem sizeT_natCast {a : Nat} (h : a < 2 ^ 64) : sizeT a = a := by
  rw [sizeT]
  omega

/-- `2 + len` and the like: a 16-bit length and a small constant. -/
theorem sizeT_addInt {a len : Nat} (ha : a ≤ 10) (h : len < 256 ^ 2) :
    sizeT (addInt a len) = a + len := by
  rw [addInt_natCast (by omega), sizeT_natCast (by omega)]

/-- `2 + len + 4` and the like. -/
theorem sizeT_addInt_addInt {a len b : Nat} (ha : a ≤ 10) (hb : b ≤ 10) (h : len < 256 ^ 2) :
    sizeT (addInt (addInt a len) b) = a + len + b := by
  rw [addInt_natCast (by omega), addInt_natCast (by omega), sizeT_natCast (by omega)]

theorem addU64_eq {a b : Nat} (h : a + b < 2 ^ 64) : addU64 a b = a + b :=
  Nat.mod_eq_of_lt h

/-! ## Loads -/

/-- `read_le<T>(buf + i)`. -/
def Traced.readLe (size : Nat) (buf : Bytes) (i : Nat) : Traced Nat := loadLe size buf i

theorem runs_readLe {size : Nat} {buf : Bytes} {i : Nat} (h : i + size ≤ buf.length) :
    Runs (Traced.readLe size buf i) (readLe size (buf.drop i)) := Runs.loadLe h

end VaultKV
