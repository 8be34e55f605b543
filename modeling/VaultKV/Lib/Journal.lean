import VaultKV.Lib.Trace

/-!
# Journal — a log in memory with a copy on disk

What a log is for when it is written to disk as a whole: the records of the
last flush are KEPT, those in memory are LIVE, and opening the log makes the
kept ones live. A process that stops without a flush loses what it appended
since.
-/

namespace VaultKV.Lib

variable {ρ : Type}

structure Journal (ρ : Type) where
  kept : List ρ := []
  live : Option (List ρ) := none
  deriving DecidableEq

/-- What happens to a journal. -/
inductive JournalEvent (ρ : Type) where
  | opened
  | appended (r : ρ)
  | flushed
  | stopped
  deriving DecidableEq

namespace Journal

def step (j : Journal ρ) : JournalEvent ρ → Journal ρ
  | .opened => { j with live := some j.kept }
  | .appended r => { j with live := j.live.map (· ++ [r]) }
  | .flushed => { j with kept := j.live.getD j.kept }
  | .stopped => { j with live := none }

def run (j : Journal ρ) (es : List (JournalEvent ρ)) : Journal ρ := es.foldl step j

@[simp] theorem run_nil (j : Journal ρ) : j.run [] = j := rfl

@[simp] theorem run_cons (j : Journal ρ) (e : JournalEvent ρ) (es : List (JournalEvent ρ)) :
    j.run (e :: es) = (j.step e).run es := rfl

theorem run_append (j : Journal ρ) (es fs : List (JournalEvent ρ)) :
    j.run (es ++ fs) = (j.run es).run fs :=
  List.foldl_append

end Journal

end VaultKV.Lib
