import VaultKV.Lib.Bytes

/-!
# Types — status codes and the ways a call can end (`types.h`)

`Status` and `Result<T>` of the source are ONE type here: `Res α` is the
value of a call that returned `Ok`, or the reason it did not. A call that
returns `Status::Ok(seq)` is a `Res Nat`.

Two ends of a C++ call are not statuses and stay apart from them: an
exception nobody in the program catches, and an access outside a vector,
which has no defined result.
-/

namespace VaultKV

open Lib

/-- `enum class StatusCode`. -/
inductive StatusCode where
  | kOk
  | kNotFound
  | kInvalidArgument
  | kIoError
  | kCorruption
  | kCryptoError
  | kNoQuorum
  | kNotLeader
  | kUnsupported
  deriving DecidableEq, Repr

/-- A status other than `Ok`: its code and its message. -/
structure Status where
  code : StatusCode
  message : String
  deriving DecidableEq, Repr

/-- The exceptions of the standard library that the modelled code can
raise (`std::vector` sized beyond `max_size()`). -/
inductive StdException where
  | lengthError
  deriving DecidableEq, Repr

/-- How a call that does not return `Ok` ends. -/
inductive Err where
  | status (s : Status)
  | exception (e : StdException)
  | outOfBounds
  deriving DecidableEq, Repr

/-- `Status` / `Result<T>`. -/
abbrev Res (α : Type) := Except Err α

namespace Status

def notFound (msg : String) : Err := .status ⟨.kNotFound, msg⟩
def invalidArgument (msg : String) : Err := .status ⟨.kInvalidArgument, msg⟩
def ioError (msg : String) : Err := .status ⟨.kIoError, msg⟩
def corruption (msg : String) : Err := .status ⟨.kCorruption, msg⟩
def cryptoError (msg : String) : Err := .status ⟨.kCryptoError, msg⟩
def noQuorum (msg : String) : Err := .status ⟨.kNoQuorum, msg⟩

end Status

/-- The code of a failed call, when it ended with a status. -/
def Err.code? : Err → Option StatusCode
  | .status s => some s.code
  | _ => none

/-- `Status::ok()` / `Result<T>::ok()`. -/
def Res.isOk {α : Type} : Res α → Bool
  | .ok _ => true
  | .error _ => false

@[simp] theorem Res.isOk_ok {α : Type} (a : α) : Res.isOk (.ok a : Res α) = true := rfl

@[simp] theorem Res.isOk_error {α : Type} (e : Err) :
    Res.isOk (.error e : Res α) = false := rfl

/-- The options of `EngineOptions` that the modelled code reads. The data
directory is the engine's disk, the encryption key sits in the cipher. -/
structure EngineOptions where
  walSegmentSizeBytes : Nat := 64 * 1024 * 1024
  memtableBudgetBytes : Nat := 32 * 1024 * 1024
  enableReplication : Bool := false
  quorumSize : Nat := 2
  deriving DecidableEq, Repr

/-- What the code takes from the operating system: the longest mapping
`mmap` grants. A 64-bit process has fewer than `2 ^ 57` addresses. -/
structure Platform where
  maxMap : Nat
  maxMap_lt : maxMap < 2 ^ 57

end VaultKV
