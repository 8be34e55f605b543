import VaultKV.Engine.Steps

/-!
# Engine — runs

A run is a list of the public writing operations, each with what it meets
outside the program. `mapOf` is the abstract machine the engine is meant to
implement: a map that every ACCEPTED write updates and that flushes and
compactions leave alone. `CompactsSafely` says of a run that no compaction
in it drops a tombstone that level 1 still needs.
-/

namespace VaultKV

open Lib

/-- A public operation that writes. -/
inductive Op (c : Cipher) where
  | set (io : WriteIo c) (key value : Bytes)
  | delete (io : WriteIo c) (key : Bytes)
  | flush (io : FlushIo c)
  | compact (io : CompactIo c)

/-- The operation meets no I/O failure. -/
def Op.Clean {c : Cipher} : Op c → Prop
  | .set io _ _ => io.flush.Clean
  | .delete _ _ => True
  | .flush io => io.Clean
  | .compact io => io.Clean

/-- The key an operation writes, with the answer it asks for. -/
def Op.write? {c : Cipher} : Op c → Option (Bytes × Option Bytes)
  | .set _ key value => some (key, some value)
  | .delete _ key => some (key, none)
  | _ => none

namespace Engine

variable (cfg : Config)

def step (op : Op cfg.cipher) (e : Engine) : Res Nat × Engine :=
  match op with
  | .set io key value => e.set cfg io key value
  | .delete io key => e.delete cfg io key
  | .flush io => e.flushMemTable cfg io
  | .compact io => e.maybeCompact cfg io

def run : List (Op cfg.cipher) → Engine → Engine
  | [], e => e
  | op :: ops, e => run ops (e.step cfg op).2

/-- The operations of a run with their results. -/
def trace : List (Op cfg.cipher) → Engine → List (Op cfg.cipher × Res Nat)
  | [], _ => []
  | op :: ops, e => (op, (e.step cfg op).1) :: trace ops (e.step cfg op).2

end Engine

/-! ## The map -/

/-- One step of the map: a write that returned `Ok` is accepted. -/
def accept {c : Cipher} (m : Bytes → Option Bytes) (ev : Op c × Res Nat) :
    Bytes → Option Bytes :=
  match ev.1.write?, ev.2 with
  | some (key, answer), .ok _ => Function.update m key answer
  | _, _ => m

/-- The map after the events: each key's last accepted write. -/
def mapOf {c : Cipher} (evs : List (Op c × Res Nat)) : Bytes → Option Bytes :=
  evs.foldl accept fun _ => none

/-- The map works key by key. -/
theorem accept_congr {c : Cipher} {m m' : Bytes → Option Bytes} {k : Bytes}
    (h : m k = m' k) (ev : Op c × Res Nat) : accept m ev k = accept m' ev k := by
  unfold accept
  cases ev.1.write? with
  | none => exact h
  | some w =>
      cases ev.2 with
      | error err => exact h
      | ok n =>
          dsimp only
          by_cases hk : k = w.1
          · subst hk; rw [Function.update_self, Function.update_self]
          · rw [Function.update_of_ne hk, Function.update_of_ne hk, h]

/-! ## Where compactions happen -/

namespace Engine

variable (cfg : Config)

/-- The state in which `FlushMemTable` calls `MaybeCompact`. -/
def flushPoint (io : FlushIo cfg.cipher) (e : Engine) : Option Engine :=
  if e.isOpen = false then none
  else
    match e.buildAndInstall cfg io with
    | (.ok (some _), e) => some e
    | _ => none

/-- The state in which an operation calls `MaybeCompact`, if it does. -/
def compactPoint (op : Op cfg.cipher) (e : Engine) : Option Engine :=
  match op with
  | .set io key value =>
      match e.logWrite cfg io .kSet key value with
      | (.ok seq, e) =>
          match replicate cfg io.calls, e.memtable.set key value seq with
          | .ok _, (.ok _, m) =>
              if m.memoryBudget ≤ m.approxMemory then
                flushPoint cfg io.flush { e with memtable := m }
              else none
          | _, _ => none
      | _ => none
  | .delete _ _ => none
  | .flush io => flushPoint cfg io e
  | .compact _ => some e

/-- A compaction in this state brings no deleted key back: every tombstone
it drops belongs to a key that level 1 does not answer. -/
def SafePoint (e : Engine) : Prop :=
  Lsm.Compactable (e.contents cfg) → (e.contents cfg).CompactSafe

instance (e : Engine) : Decidable (e.SafePoint cfg) :=
  inferInstanceAs (Decidable (_ → _))

/-- The compaction an operation starts, if it does, is safe. -/
def SafeStep (op : Op cfg.cipher) (e : Engine) : Prop :=
  ∀ e' ∈ e.compactPoint cfg op, e'.SafePoint cfg

instance (op : Op cfg.cipher) (e : Engine) : Decidable (e.SafeStep cfg op) :=
  inferInstanceAs (Decidable (∀ e' ∈ _, _))

/-- **Every compaction of the run is safe.** -/
def CompactsSafely : List (Op cfg.cipher) → Engine → Prop
  | [], _ => True
  | op :: ops, e => e.SafeStep cfg op ∧ CompactsSafely ops (e.step cfg op).2

instance decidableCompactsSafely : (ops : List (Op cfg.cipher)) → (e : Engine) →
    Decidable (e.CompactsSafely cfg ops)
  | [], _ => isTrue trivial
  | op :: ops, e =>
      have := decidableCompactsSafely ops (e.step cfg op).2
      inferInstanceAs (Decidable (_ ∧ _))

end Engine

/-! ## The first part of a write -/

/-- A write that does not reach the log leaves the engine as it was. -/
theorem logWrite_error {cfg : Config} {io : WriteIo cfg.cipher} {op : WalOp}
    {key value : Bytes} {e e' : Engine} {err : Err}
    (h : e.logWrite cfg io op key value = (.error err, e')) : e' = e := by
  unfold Engine.logWrite at h
  by_cases hopen : e.isOpen = false
  · rw [if_pos hopen] at h
    exact (Prod.mk.inj h).2.symm
  · by_cases hkey : key = []
    · rw [if_neg hopen, if_pos hkey] at h
      exact (Prod.mk.inj h).2.symm
    · rw [if_neg hopen, if_neg hkey] at h
      obtain ⟨hres, rfl⟩ := Prod.mk.inj h
      have hwal : (e.wal.append cfg.cipher cfg.opts.walSegmentSizeBytes io.ts io.rand op
          key value).2 = e.wal := append_error (Prod.ext hres rfl)
      rw [hwal]

/-- A write that reaches the log changes the log only. -/
theorem logWrite_ok {cfg : Config} {io : WriteIo cfg.cipher} {op : WalOp}
    {key value : Bytes} {e e' : Engine} {seq : Nat}
    (h : e.logWrite cfg io op key value = (.ok seq, e')) :
    e.isOpen = true ∧ key ≠ [] ∧ ∃ w, e.wal.append cfg.cipher
      cfg.opts.walSegmentSizeBytes io.ts io.rand op key value = (.ok seq, w) ∧
      e' = { e with wal := w } := by
  unfold Engine.logWrite at h
  by_cases hopen : e.isOpen = false
  · rw [if_pos hopen] at h; cases h
  · by_cases hkey : key = []
    · rw [if_neg hopen, if_pos hkey] at h; cases h
    · rw [if_neg hopen, if_neg hkey] at h
      obtain ⟨hres, rfl⟩ := Prod.mk.inj h
      exact ⟨by simpa using hopen, hkey, _, Prod.ext hres rfl, rfl⟩

/-- The record a write appends to the log. -/
def Engine.appended (cfg : Config) (io : WriteIo cfg.cipher) (op : WalOp) (key value : Bytes)
    (e : Engine) : List WalRecord :=
  match (e.logWrite cfg io op key value).1 with
  | .ok seq => [⟨op, seq, io.ts % 2 ^ 64, key, value⟩]
  | .error _ => []

/-- **What a write appends is in the log.** -/
theorem Engine.appended_hasRecord {cfg : Config} {io : WriteIo cfg.cipher} {op : WalOp}
    {key value : Bytes} {e : Engine} {rec : WalRecord}
    (h : rec ∈ e.appended cfg io op key value) :
    (e.logWrite cfg io op key value).2.wal.HasRecord cfg.cipher rec := by
  rw [Engine.appended] at h
  rcases hlog : e.logWrite cfg io op key value with ⟨res, e'⟩
  rw [hlog] at h
  cases res with
  | error err => cases h
  | ok seq =>
      obtain ⟨-, -, w, happ, rfl⟩ := logWrite_ok hlog
      obtain rfl := List.mem_singleton.mp h
      exact append_hasRecord happ

/-- What was appended before stays in the log. -/
theorem logWrite_keeps {cfg : Config} {e : Engine} {rec : WalRecord}
    (h : e.wal.HasRecord cfg.cipher rec) (io : WriteIo cfg.cipher) (op : WalOp)
    (key value : Bytes) : (e.logWrite cfg io op key value).2.wal.HasRecord cfg.cipher rec := by
  unfold Engine.logWrite
  split
  · exact h
  · split
    · exact h
    · exact h.append _ _ _ _ _ _

/-! ## What a write can come to -/

section

variable {cfg : Config} {io : WriteIo cfg.cipher} {op : WalOp} {key value : Bytes}
  {last : Nat → Engine → Res Nat × Engine} {e : Engine} {out : Res Nat × Engine}

variable (cfg io op key value) in
/-- The record reached the log as number `seq`, which left the log `w`. -/
structure Engine.Recorded (e : Engine) (seq : Nat) (w : Wal) : Prop where
  logWrite : e.logWrite cfg io op key value = (.ok seq, { e with wal := w })
  isOpen : e.isOpen = true
  key_ne : key ≠ []
  append : e.wal.append cfg.cipher cfg.opts.walSegmentSizeBytes io.ts io.rand op key value
    = (.ok seq, w)

variable (cfg io op key value last e out) in
/-- A write whose last part is `last` is refused before the log and changes
nothing; or it is refused by the peers and its record stays; or it gets to
its last part. -/
inductive Engine.Writes : Prop
  | refused (err : Err) (hlog : e.logWrite cfg io op key value = (.error err, e))
      (hout : out = (.error err, e))
  | unreplicated (seq : Nat) (w : Wal) (err : Err) (hrec : e.Recorded cfg io op key value seq w)
      (hrepl : Engine.replicate cfg io.calls = .error err)
      (hout : out = (.error err, { e with wal := w }))
  | applied (seq : Nat) (w : Wal) (n : Nat) (hrec : e.Recorded cfg io op key value seq w)
      (hrepl : Engine.replicate cfg io.calls = .ok n) (hout : out = last seq { e with wal := w })

theorem Engine.writes_of
    (hrefused : ∀ err e₁, e.logWrite cfg io op key value = (.error err, e₁) →
      out = (.error err, e₁))
    (hunreplicated : ∀ seq e₁ err, e.logWrite cfg io op key value = (.ok seq, e₁) →
      Engine.replicate cfg io.calls = .error err → out = (.error err, e₁))
    (happlied : ∀ seq e₁ n, e.logWrite cfg io op key value = (.ok seq, e₁) →
      Engine.replicate cfg io.calls = .ok n → out = last seq e₁) :
    e.Writes cfg io op key value last out := by
  rcases hlog : e.logWrite cfg io op key value with ⟨res, e₁⟩
  cases res with
  | error err =>
      have hout := hrefused err e₁ hlog
      obtain rfl := logWrite_error hlog
      exact .refused err hlog hout
  | ok seq =>
      obtain ⟨hopen, hkey, w, happ, rfl⟩ := logWrite_ok hlog
      have hrec : e.Recorded cfg io op key value seq w := ⟨hlog, hopen, hkey, happ⟩
      cases hrepl : Engine.replicate cfg io.calls with
      | error err => exact .unreplicated seq w err hrec hrepl (hunreplicated _ _ _ hlog hrepl)
      | ok n => exact .applied seq w n hrec hrepl (happlied _ _ _ hlog hrepl)

theorem Engine.set_writes (cfg : Config) (io : WriteIo cfg.cipher) (key value : Bytes)
    (e : Engine) : e.Writes cfg io .kSet key value
      (fun seq e => e.applySet cfg io.flush key value seq) (e.set cfg io key value) := by
  apply Engine.writes_of
  · intro err e₁ hlog
    simp only [Engine.set, hlog]
  · intro seq e₁ err hlog hrepl
    simp only [Engine.set, hlog, hrepl]
  · intro seq e₁ n hlog hrepl
    simp only [Engine.set, hlog, hrepl]

theorem Engine.delete_writes (cfg : Config) (io : WriteIo cfg.cipher) (key : Bytes)
    (e : Engine) : e.Writes cfg io .kDelete key []
      (fun seq e => e.applyDelete key seq) (e.delete cfg io key) := by
  apply Engine.writes_of
  · intro err e₁ hlog
    simp only [Engine.delete, hlog]
  · intro seq e₁ err hlog hrepl
    simp only [Engine.delete, hlog, hrepl]
  · intro seq e₁ n hlog hrepl
    simp only [Engine.delete, hlog, hrepl]

/-- **A write keeps** what a new log and its last part keep. -/
theorem Engine.Writes.keeps {P : Engine → Prop} (h : e.Writes cfg io op key value last out)
    (he : P e)
    (hlog : ∀ seq w, e.Recorded cfg io op key value seq w → P { e with wal := w })
    (hlast : ∀ seq w, e.Recorded cfg io op key value seq w → P { e with wal := w } →
      P (last seq { e with wal := w }).2) : P out.2 := by
  cases h with
  | refused err _ hout =>
      rw [hout]
      exact he
  | unreplicated seq w err hrec _ hout =>
      rw [hout]
      exact hlog seq w hrec
  | applied seq w n hrec _ hout =>
      rw [hout]
      exact hlast seq w hrec (hlog seq w hrec)

end

/-! ## A small engine -/

/-- Surroundings in which nothing fails; the clock stands still. -/
def BuildIo.quiet {c : Cipher} (rand : c.Rand) : BuildIo c := { rand := fun _ => rand }

def CompactIo.quiet {c : Cipher} (rand : c.Rand) : CompactIo c :=
  { nanos := 0, merge := { build := .quiet rand } }

def FlushIo.quiet {c : Cipher} (rand : c.Rand) : FlushIo c :=
  { nanos := 0, build := .quiet rand, compact := .quiet rand }

def WriteIo.quiet {c : Cipher} (rand : c.Rand) : WriteIo c :=
  { ts := 0, rand := rand, flush := .quiet rand }

theorem FlushIo.quiet_clean {c : Cipher} (rand : c.Rand) :
    (FlushIo.quiet rand : FlushIo c).Clean :=
  ⟨⟨rfl, rfl, rfl, rfl⟩, rfl, ⟨fun _ => rfl, fun _ _ => rfl, ⟨rfl, rfl, rfl, rfl⟩⟩, rfl,
    fun _ => rfl⟩

/-- An engine of one node with the fallback cipher and a small log. -/
def smallConfig (memtableBudgetBytes : Nat) : Config :=
  { cipher := fallback zeroKey
    opts := { walSegmentSizeBytes := 600, memtableBudgetBytes := memtableBudgetBytes }
    platform := { maxMap := 4096, maxMap_lt := by decide } }

namespace Small

variable (budget : Nat)

def set (k v : UInt8) : Op (smallConfig budget).cipher := .set (.quiet (0 : Nat)) [k] [v]

def delete (k : UInt8) : Op (smallConfig budget).cipher := .delete (.quiet (0 : Nat)) [k]

/-- The engine opened on an empty directory. -/
def opened : Engine := ((Engine.fresh (smallConfig budget)).open (smallConfig budget) {}).2

end Small

theorem Small.opened_ok (budget : Nat) (h : ((Engine.fresh (smallConfig budget)).open
      (smallConfig budget) {}).1 = .ok 0) :
    (Engine.fresh (smallConfig budget)).open (smallConfig budget) {}
      = (.ok 0, Small.opened budget) :=
  Prod.ext h rfl

end VaultKV
