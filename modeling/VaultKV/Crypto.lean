import VaultKV.Util

/-!
# Crypto — the cipher the engine is given (`crypto.h`, `crypto.cpp`)

`AesGcm256` with a fixed key is a parameter of every other module: a
`Cipher` encrypts with fresh randomness (the nonce OpenSSL draws, and with
it whether the call succeeds at all) and decrypts a blob or refuses it.
What the code relies on is `Cipher.Lawful`; nothing else is assumed.

The file's own cipher, the DEVELOPMENT FALLBACK that is compiled when
OpenSSL is missing, is `fallback`. It is lawful, so every statement about
a lawful cipher has at least this instance, the one the source spells out.
-/

namespace VaultKV

open Lib

/-- `std::array<uint8_t, n>`. -/
structure ByteArr (n : Nat) where
  bytes : Bytes
  length_eq : bytes.length = n
  deriving DecidableEq

/-- A zeroed array with `b` copied over its front. -/
def ByteArr.ofBytes (n : Nat) (b : Bytes) : ByteArr n :=
  ⟨(b ++ List.replicate n 0).take n, by simp⟩

theorem ByteArr.ofBytes_eq {n : Nat} (a : ByteArr n) :
    ByteArr.ofBytes n a.bytes = a := by
  obtain ⟨b, rfl⟩ := a
  simp [ByteArr.ofBytes]

theorem ByteArr.ofBytes_injective {n : Nat} {b b' : Bytes} (hb : b.length = n)
    (hb' : b'.length = n) (h : ByteArr.ofBytes n b = ByteArr.ofBytes n b') : b = b' := by
  have hbytes : (b ++ List.replicate n 0).take n = (b' ++ List.replicate n 0).take n :=
    congrArg ByteArr.bytes h
  rwa [List.take_left' hb, List.take_left' hb'] at hbytes

/-- `struct CipherBlob`. -/
structure CipherBlob where
  nonce : ByteArr 12
  tag : ByteArr 16
  ciphertext : Bytes
  deriving DecidableEq

/-- `AesGcm256` with its key: `encrypt` is `Encrypt(plaintext)` under one
outcome of the random generator, `decrypt` is `Decrypt(blob, "")`. -/
structure Cipher where
  Rand : Type
  encrypt : Rand → Bytes → Option CipherBlob
  decrypt : CipherBlob → Option Bytes

/-- What the engine relies on: a blob that was produced decrypts to its
plaintext, and the ciphertext is as long as the plaintext. -/
structure Cipher.Lawful (c : Cipher) : Prop where
  decrypt_encrypt : ∀ r p b, c.encrypt r p = some b → c.decrypt b = some p
  length_encrypt : ∀ r p b, c.encrypt r p = some b →
    b.ciphertext.length = p.length

/-! ## The development fallback -/

namespace Fallback

/-- Byte `i` of an array that is indexed modulo its size. -/
def cyc {n : Nat} (a : ByteArr n) (i : Nat) : UInt8 := a.bytes.getD (i % n) 0

/-- The nonce drawn from a clock reading. -/
def nonce (key : ByteArr 32) (seed : Nat) : ByteArr 12 :=
  ⟨(List.range 12).map fun i => UInt8.ofNat (seed >>> (i % 8 * 8)) ^^^ cyc key i,
    by simp⟩

/-- The keystream applied to `text` from position `i` on. -/
def mask (key : ByteArr 32) (n : ByteArr 12) : Nat → Bytes → Bytes
  | _, [] => []
  | i, b :: bs => (b ^^^ cyc key i ^^^ cyc n i) :: mask key n (i + 1) bs

/-- The tag of a ciphertext (no associated data is ever passed). -/
def tag (key : ByteArr 32) (ciphertext : Bytes) : ByteArr 16 :=
  ⟨(List.range 16).map fun i =>
    UInt8.ofNat ((crc32 ciphertext).toNat >>> (i % 4 * 8)) ^^^ cyc key (i + 7),
    by simp⟩

def encrypt (key : ByteArr 32) (seed : Nat) (plaintext : Bytes) : CipherBlob :=
  let n := nonce key seed
  let text := mask key n 0 plaintext
  { nonce := n, tag := tag key text, ciphertext := text }

def decrypt (key : ByteArr 32) (blob : CipherBlob) : Option Bytes :=
  if tag key blob.ciphertext = blob.tag then
    some (mask key blob.nonce 0 blob.ciphertext)
  else none

theorem length_mask (key : ByteArr 32) (n : ByteArr 12) (i : Nat) (t : Bytes) :
    (mask key n i t).length = t.length := by
  induction t generalizing i with
  | nil => rfl
  | cons b t ih => rw [mask, List.length_cons, List.length_cons, ih]

theorem xor_pair_cancel (b k n : UInt8) : b ^^^ k ^^^ n ^^^ k ^^^ n = b := by
  have h : b ^^^ k ^^^ n ^^^ k = b ^^^ n := by
    rw [UInt8.xor_assoc b k n, UInt8.xor_comm k n, UInt8.xor_assoc,
      UInt8.xor_assoc n k k, UInt8.xor_self, UInt8.xor_zero]
  rw [h, UInt8.xor_assoc, UInt8.xor_self, UInt8.xor_zero]

/-- Masking twice is the identity. -/
theorem mask_mask (key : ByteArr 32) (n : ByteArr 12) (i : Nat) (t : Bytes) :
    mask key n i (mask key n i t) = t := by
  induction t generalizing i with
  | nil => rfl
  | cons b t ih => rw [mask, mask, ih, xor_pair_cancel]

end Fallback

/-- The cipher compiled without OpenSSL; its randomness is the clock. -/
def fallback (key : ByteArr 32) : Cipher where
  Rand := Nat
  encrypt := fun seed p => some (Fallback.encrypt key seed p)
  decrypt := Fallback.decrypt key

theorem fallback_lawful (key : ByteArr 32) : (fallback key).Lawful where
  decrypt_encrypt := by
    intro seed p b hb
    obtain rfl := Option.some.inj hb
    simp [fallback, Fallback.decrypt, Fallback.encrypt, Fallback.mask_mask]
  length_encrypt := by
    intro seed p b hb
    obtain rfl := Option.some.inj hb
    exact Fallback.length_mask _ _ _ _

/-- The fallback never fails to encrypt. -/
theorem fallback_encrypt_isSome (key : ByteArr 32) (seed : Nat) (p : Bytes) :
    ((fallback key).encrypt seed p).isSome = true := rfl

/-- `encryption_key{}`, the key of an engine nobody configured. -/
def zeroKey : ByteArr 32 := ⟨List.replicate 32 0, by simp⟩

end VaultKV
