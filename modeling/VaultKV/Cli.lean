import VaultKV.Text
import VaultKV.Codec
import VaultKV.Server.Shared

/-!
# Cli — the command line client (`vaultkv-cli.cpp`)

The client reads a line, cuts it with `operator>>` and `getline` into a
command, sends one frame and prints the reply. Three things are settled here.
WHAT a line asks for (`typed`) has nothing to do with the states of the
stream it is read from; the node takes the frame if its payload is at most
4 MiB, understands it exactly if the key or prefix is shorter than 64 KiB,
and what it makes of a longer one depends on the command. WHICH requests can
be typed at all. And what a session SHOWS: over any lines, a `GET` prints the
value of the last `SET` whose line was followed by an `ACK`.
-/

namespace VaultKV

open Lib Gateway

/-! ## Reading a line -/

/-- An `istringstream`: what is left of it while it is `good()`. Once it has
met its end or a read has failed, later reads find nothing. -/
abbrev TextStream := Option Bytes

namespace TextStream

/-- A stream is good as long as the last read has not met its end. -/
def left (b : Bytes) : TextStream := if b = [] then none else some b

/-- The sentry of a formatted read skips spaces; it fails when only spaces
are left. -/
def sentry (s : TextStream) : Option Bytes := s.bind fun b => left (b.dropWhile isSpace)

/-- `>>` to a string. -/
def word (s : TextStream) : Bytes × TextStream :=
  match s.sentry with
  | none => ([], none)
  | some b => (b.takeWhile (!isSpace ·), left (b.dropWhile (!isSpace ·)))

/-- `std::getline` to a string, as the last read of a stream. -/
def line : TextStream → Bytes
  | none => []
  | some b => b.takeWhile (· ≠ 10)

/-- `>>` to an `int`, as the last read of a stream: the variable keeps its
value if the sentry fails, becomes 0 if there is no number, and the nearest
`int` if the number is none. -/
def int (old : Int) (s : TextStream) : Int :=
  match s.sentry with
  | none => old
  | some b =>
      match scanInt b with
      | none => 0
      | some (n, _) => max (-2 ^ 31) (min (2 ^ 31 - 1) n)

end TextStream

namespace Cli

/-- `make_set_payload`. -/
def makeSetPayload (key value : Bytes) : Frame := ⟨.set, 0, setPayload key value⟩

/-- `make_key_payload_frame`. -/
def makeKeyPayloadFrame (type : OpType) (key : Bytes) : Frame := ⟨type, 0, keyPayload key⟩

/-- `make_scan_payload`; the limit is a `uint16_t`. -/
def makeScanPayload (start : Bytes) (limit : Nat) : Frame := ⟨.scan, 0, scanPayload start limit⟩

/-- What the loop of `main` does with a line: skip it, end, complain, or send
a request. -/
inductive Input where
  | blank
  | quit
  | unknown
  | request (f : Frame)
  deriving DecidableEq

/-- A command in one of its two spellings. -/
def isCmd (upper lower : String) (cmd : Bytes) : Bool :=
  decide (cmd = textBytes upper ∨ cmd = textBytes lower)

/-- The value of a `SET` without the blank in front of it. -/
def dropBlank (v : Bytes) : Bytes := if v.head? = some 32 then v.tail else v

/-- `static_cast<uint16_t>(std::max(1, limit))`. -/
def limit16 (limit : Int) : Nat := (max 1 limit).toNat % 2 ^ 16

/-- The body of the loop up to `write_all`. -/
def input (line : Bytes) : Input :=
  if line = [] then .blank
  else if line = textBytes "QUIT" ∨ line = textBytes "quit" ∨ line = textBytes "exit" then .quit
  else
    let (cmd, iss) := TextStream.word (some line)
    if isCmd "PING" "ping" cmd then .request ⟨.ping, 0, []⟩
    else if isCmd "SET" "set" cmd then
      let (k, iss) := iss.word
      .request (makeSetPayload k (dropBlank iss.line))
    else if isCmd "GET" "get" cmd then .request (makeKeyPayloadFrame .get iss.word.1)
    else if isCmd "DEL" "del" cmd then .request (makeKeyPayloadFrame .del iss.word.1)
    else if isCmd "SCAN" "scan" cmd then
      let (start, iss) := iss.word
      .request (makeScanPayload start (limit16 (iss.int 20)))
    else .unknown

/-! ## What a line asks for -/

/-- What can be asked for at the prompt. -/
inductive Request where
  | ping
  | set (key value : Bytes)
  | get (key : Bytes)
  | del (key : Bytes)
  | scan (start : Bytes) (limit : Nat)
  deriving DecidableEq

namespace Request

def frame : Request → Frame
  | .ping => ⟨.ping, 0, []⟩
  | .set key value => makeSetPayload key value
  | .get key => makeKeyPayloadFrame .get key
  | .del key => makeKeyPayloadFrame .del key
  | .scan start limit => makeScanPayload start limit

/-- The command a node should run. -/
def command : Request → Command
  | .ping => { type := .ping }
  | .set key value => { type := .set, key := key, value := value }
  | .get key => { type := .get, key := key }
  | .del key => { type := .del, key := key }
  | .scan start limit =>
      { type := .scan, start := start, limit := if limit = 0 then 100 else limit }

/-- The key or the prefix. -/
def name : Request → Bytes
  | .ping => []
  | .set key _ => key
  | .get key => key
  | .del key => key
  | .scan start _ => start

end Request

/-- The first word of a text and what stands behind it. -/
def cutWord (b : Bytes) : Bytes × Bytes :=
  ((b.dropWhile isSpace).takeWhile (!isSpace ·), (b.dropWhile isSpace).dropWhile (!isSpace ·))

/-- The limit of a `SCAN`: 20 if none is given, 1 if it is no positive
number; a large one is cut to 16 bits. -/
def typedLimit (b : Bytes) : Nat :=
  if b.dropWhile isSpace = [] then 20
  else
    match scanInt (b.dropWhile isSpace) with
    | none => 1
    | some (n, _) => limit16 (min (2 ^ 31 - 1) n)

/-- What a command asks for with its first argument and what stands behind
that one. -/
def typedAs (cmd name rest : Bytes) : Option Request :=
  if isCmd "PING" "ping" cmd then some .ping
  else if isCmd "SET" "set" cmd then some (.set name (dropBlank (rest.takeWhile (· ≠ 10))))
  else if isCmd "GET" "get" cmd then some (.get name)
  else if isCmd "DEL" "del" cmd then some (.del name)
  else if isCmd "SCAN" "scan" cmd then some (.scan name (typedLimit rest))
  else none

/-- **What a line asks for**, read off its words. -/
def typed (line : Bytes) : Option Request :=
  let (cmd, args) := cutWord line
  let (name, rest) := cutWord args
  typedAs cmd name rest

end Cli

namespace TextStream

theorem sentry_left (b : Bytes) : (left b).sentry = left (b.dropWhile isSpace) := by
  by_cases hb : b = []
  · subst hb; rfl
  · rw [left, if_neg hb]; rfl

theorem word_left (b : Bytes) :
    (left b).word = ((Cli.cutWord b).1, left (Cli.cutWord b).2) := by
  rw [word, sentry_left]
  by_cases hb : b.dropWhile isSpace = []
  · simp [left, Cli.cutWord, hb]
  · simp [left, Cli.cutWord, hb]

theorem line_left (b : Bytes) : (left b).line = b.takeWhile (· ≠ 10) := by
  by_cases hb : b = []
  · subst hb; rfl
  · rw [left, if_neg hb]; rfl

theorem limit16_max (n : Int) : Cli.limit16 (max (-2 ^ 31) n) = Cli.limit16 n := by
  rw [Cli.limit16, Cli.limit16, max_left_comm, max_eq_right]
  exact le_trans (by decide) (le_max_left 1 n)

theorem int_left (b : Bytes) : Cli.limit16 ((left b).int 20) = Cli.typedLimit b := by
  rw [int, sentry_left, Cli.typedLimit]
  by_cases hb : b.dropWhile isSpace = []
  · rw [hb]; rfl
  · rw [left, if_neg hb, if_neg hb]
    dsimp only
    cases scanInt (b.dropWhile isSpace) with
    | none => rfl
    | some r => exact limit16_max _

end TextStream

namespace Cli

/-- **The states of the stream do not matter**: a line is sent as what its
words ask for, and as nothing else. -/
theorem input_typed (line : Bytes) :
    match typed line with
    | none => ∀ f, input line ≠ .request f
    | some r => input line = .request r.frame := by
  by_cases hblank : line = []
  · subst hblank
    exact fun f => by rintro ⟨⟩
  by_cases hquit : line = textBytes "QUIT" ∨ line = textBytes "quit" ∨ line = textBytes "exit"
  · have hinput : input line = .quit := by rw [input, if_neg hblank, if_pos hquit]
    have htyped : typed line = none := by
      rcases hquit with rfl | rfl | rfl <;> decide +kernel
    rw [htyped, hinput]
    exact fun f => by rintro ⟨⟩
  have hsome : (some line : TextStream) = TextStream.left line := (if_neg hblank).symm
  rw [input, if_neg hblank, if_neg hquit, hsome, TextStream.word_left, typed]
  dsimp only [typedAs]
  rw [TextStream.word_left]
  dsimp only
  rw [TextStream.line_left, TextStream.int_left]
  -- both sides compare the command word in the same order
  generalize (cutWord line).1 = cmd
  by_cases hping : isCmd "PING" "ping" cmd = true
  · simp only [hping, if_true]; rfl
  by_cases hset : isCmd "SET" "set" cmd = true
  · simp only [hping, hset, if_true]; rfl
  by_cases hget : isCmd "GET" "get" cmd = true
  · simp only [hping, hset, hget, if_true]; rfl
  by_cases hdel : isCmd "DEL" "del" cmd = true
  · simp only [hping, hset, hget, hdel, if_true]; rfl
  by_cases hscan : isCmd "SCAN" "scan" cmd = true
  · simp only [hping, hset, hget, hdel, hscan, if_true]; rfl
  simp only [hping, hset, hget, hdel, hscan]
  exact fun f => by rintro ⟨⟩

theorem input_of_typed {line : Bytes} {r : Request} (h : typed line = some r) :
    input line = .request r.frame := by
  have hinput := input_typed line
  rw [h] at hinput
  exact hinput

theorem input_of_untyped {line : Bytes} (h : typed line = none) (f : Frame) :
    input line ≠ .request f := by
  have hinput := input_typed line
  rw [h] at hinput
  exact hinput f

/-! ## What the node makes of it -/

/-- What a node reads when the length of the key or prefix does not fit its
16 bits: `GET` and `DEL` are refused, a `SCAN` is answered for a part of the
prefix, and a `SET`, if it is not refused, writes to a part of the key. -/
def Misread : Request → Except String Command → Prop
  | .ping, _ => False
  | .set key _, r =>
      ∀ cmd, r = .ok cmd → cmd.type = .set ∧ cmd.key = key.take (key.length % 2 ^ 16)
  | .get _, r => r = .error "GET/DEL key length mismatch"
  | .del _, r => r = .error "GET/DEL key length mismatch"
  | .scan start _, r => ∃ limit, r = .ok
      { type := .scan, start := start.take (start.length % 2 ^ 16), limit := limit }

theorem decode_frame {r : Request} (hname : r.name.length < 2 ^ 16)
    (hvalue : ∀ key value, r = .set key value → value.length < 2 ^ 32)
    (hlimit : ∀ start limit, r = .scan start limit → limit < 2 ^ 16) :
    decodeCommand r.frame = .ok r.command := by
  cases r with
  | ping => rfl
  | set key value =>
      exact decodeCommand_payload (.set key value hname (hvalue key value rfl)) 0
  | get key => exact decodeCommand_payload (.get key hname) 0
  | del key => exact decodeCommand_payload (.del key hname) 0
  | scan start limit =>
      exact decodeCommand_payload (.scan start limit hname (hlimit start limit rfl)) 0

/-- A field in front whose length is cut to 16 bits. -/
theorem field_cut (name rest : Bytes) :
    readLe 2 (appendLe 2 name.length ++ (name ++ rest)) = name.length % 2 ^ 16 ∧
      readBytes (appendLe 2 name.length ++ (name ++ rest)) 2 (name.length % 2 ^ 16)
        = name.take (name.length % 2 ^ 16) := by
  constructor
  · exact readLe_step_mod (i := 0) rfl
  · rw [readBytes, slice, List.drop_left' (length_appendLe 2 _),
      List.take_append_of_le_length (Nat.mod_le _ _)]

theorem decodeKey_long {key : Bytes} (type : OpType) (hlong : ¬ key.length < 2 ^ 16) :
    decodeCommand.decodeKey type (keyPayload key) = .error "GET/DEL key length mismatch" := by
  have hfield := (field_cut key []).1
  rw [List.append_nil] at hfield
  have hlen : (keyPayload key).length = 2 + key.length := by simp [keyPayload]
  have hcut : key.length % 2 ^ 16 < 2 ^ 16 := Nat.mod_lt _ (by decide)
  rw [decodeCommand.decodeKey, if_neg (by omega), keyPayload, hfield]
  dsimp only
  rw [← keyPayload, hlen, if_pos (by omega)]

theorem misread_frame {r : Request} (hlong : ¬ r.name.length < 2 ^ 16) :
    Misread r (decodeCommand r.frame) := by
  cases r with
  | ping => exact hlong (by decide)
  | set key value =>
      intro cmd hcmd
      obtain ⟨hlen, hkey⟩ := field_cut key (appendLe 4 value.length ++ value)
      rw [Request.frame, makeSetPayload, setPayload, decodeCommand] at hcmd
      dsimp only at hcmd
      rw [hlen] at hcmd
      -- the value's length is read from within the key, so any of the checks may fail
      split at hcmd
      · cases hcmd
      split at hcmd
      · cases hcmd
      split at hcmd
      · cases hcmd
      · cases hcmd
        exact ⟨rfl, hkey⟩
  | get key => exact decodeKey_long .get hlong
  | del key => exact decodeKey_long .del hlong
  | scan start limit =>
      have hfield := field_cut start (appendLe 2 limit)
      have hcut : start.length % 2 ^ 16 ≤ start.length := Nat.mod_le _ _
      have hlen : (appendLe 2 start.length ++ (start ++ appendLe 2 limit)).length
          = 4 + start.length := by
        simp; omega
      rw [Misread, Request.frame, makeScanPayload, scanPayload, decodeCommand]
      dsimp only
      rw [hfield.1, hfield.2, hlen, if_neg (by omega), if_neg (by omega)]
      exact ⟨_, rfl⟩

theorem typed_cases {line : Bytes} {r : Request} (h : typed line = some r) :
    ∃ name rest, cutWord (cutWord line).2 = (name, rest) ∧
      (r = .ping ∨ r = .set name (dropBlank (rest.takeWhile (· ≠ 10))) ∨ r = .get name ∨
        r = .del name ∨ r = .scan name (typedLimit rest)) := by
  rw [typed] at h
  dsimp only [typedAs] at h
  generalize cutWord (cutWord line).2 = args at h ⊢
  obtain ⟨name, rest⟩ := args
  refine ⟨name, rest, rfl, ?_⟩
  split at h
  · exact .inl (Option.some.inj h).symm
  split at h
  · exact .inr (.inl (Option.some.inj h).symm)
  split at h
  · exact .inr (.inr (.inl (Option.some.inj h).symm))
  split at h
  · exact .inr (.inr (.inr (.inl (Option.some.inj h).symm)))
  split at h
  · exact .inr (.inr (.inr (.inr (Option.some.inj h).symm)))
  · cases h

theorem length_cutWord (b : Bytes) : (cutWord b).1.length + (cutWord b).2.length ≤ b.length := by
  rw [cutWord, ← List.length_append, List.takeWhile_append_dropWhile]
  exact (List.dropWhile_sublist _).length_le

theorem dropBlank_sublist (v : Bytes) : (dropBlank v).Sublist v := by
  rw [dropBlank]
  split
  · exact List.tail_sublist v
  · exact List.Sublist.refl v

theorem typedLimit_lt (b : Bytes) : typedLimit b < 2 ^ 16 := by
  rw [typedLimit]
  split
  · decide
  · split
    · decide
    · exact Nat.mod_lt _ (by decide)

/-- A key and a value are parts of the line they stand on. -/
theorem typed_set_length {line key value : Bytes} (h : typed line = some (.set key value)) :
    key.length + value.length ≤ line.length := by
  obtain ⟨name, rest, hcut, hcases⟩ := typed_cases h
  have hargs := length_cutWord (cutWord line).2
  have hline := length_cutWord line
  rw [hcut] at hargs
  have hsub : ∀ v : Bytes, dropBlank (rest.takeWhile (· ≠ 10)) = v → v.length ≤ rest.length := by
    rintro v rfl
    exact ((dropBlank_sublist _).trans (List.takeWhile_sublist _)).length_le
  simp only [reduceCtorEq, Request.set.injEq, false_or, or_false] at hcases
  have hvalue := hsub value hcases.2.symm
  rw [hcases.1]
  dsimp only at hargs
  omega

theorem typed_scan_limit {line start : Bytes} {limit : Nat}
    (h : typed line = some (.scan start limit)) : limit < 2 ^ 16 := by
  obtain ⟨name, rest, -, hcases⟩ := typed_cases h
  simp only [reduceCtorEq, Request.scan.injEq, false_or] at hcases
  exact hcases.2 ▸ typedLimit_lt rest

/-- What is sent for a line is hardly longer than the line. -/
theorem typed_payload_length {line : Bytes} {r : Request} (h : typed line = some r) :
    r.frame.payload.length ≤ line.length + 6 := by
  obtain ⟨name, rest, hcut, hcases⟩ := typed_cases h
  have hargs := length_cutWord (cutWord line).2
  have hline := length_cutWord line
  rw [hcut] at hargs
  have hname : name.length ≤ line.length := by
    dsimp only at hargs
    omega
  have hfield : ∀ n m : Nat, (appendLe n m).length = n := fun n m => length_appendLe n m
  rcases hcases with rfl | rfl | rfl | rfl | rfl
  · exact Nat.zero_le _
  · have hlen := typed_set_length h
    simp only [Request.frame, makeSetPayload, setPayload, List.length_append, hfield]
    omega
  · simp only [Request.frame, makeKeyPayloadFrame, keyPayload, List.length_append, hfield]
    omega
  · simp only [Request.frame, makeKeyPayloadFrame, keyPayload, List.length_append, hfield]
    omega
  · simp only [Request.frame, makeScanPayload, scanPayload, List.length_append, hfield]
    omega

/-- **What a line asks for is what the node reads**, for every line shorter
than 4 GiB by at least seven bytes: a payload above 4 MiB is refused by
`TryParseFrames`; any other frame is found in the buffer, and decoded as the
request exactly if its key or prefix is shorter than 64 KiB. What a node
makes of a longer one is `Misread`. -/
theorem understood (line : Bytes) (hline : line.length + 6 < 2 ^ 32) :
    match typed line with
    | none => ∀ f, input line ≠ .request f
    | some r => ∃ f, input line = .request f ∧
        if kMaxPayloadBytes < f.payload.length then
          tryParseFrames f.bytes = (some "payload too large", [], f.bytes)
        else tryParseFrames f.bytes = (none, [f], []) ∧
          if r.name.length < 2 ^ 16 then decodeCommand f = .ok r.command
          else Misread r (decodeCommand f) := by
  cases htyped : typed line with
  | none => exact input_of_untyped htyped
  | some r =>
      have hpayload := typed_payload_length htyped
      have hparse := tryParseFrames_bytes (f := r.frame) (by omega)
      refine ⟨r.frame, input_of_typed htyped, ?_⟩
      split
      · next hlarge => rw [hparse, if_pos hlarge]
      · next hfits =>
        refine ⟨by rw [hparse, if_neg hfits], ?_⟩
        split
        · next hname =>
          refine decode_frame hname (fun key value hr => ?_) fun start limit hr => ?_
          · have hlen := typed_set_length (hr ▸ htyped)
            omega
          · exact typed_scan_limit (hr ▸ htyped)
        · next hlong => exact misread_frame hlong

/-- The value of a `SET` keeps all blanks but the first one; a limit that is
no number asks for one row. -/
theorem typedLines_understood :
    tryParseFrames (makeSetPayload [97] (textBytes " b ")).bytes
      = (none, [makeSetPayload [97] (textBytes " b ")], []) ∧
    decodeCommand (makeSetPayload [97] (textBytes " b ")) = .ok
        { type := .set, key := [97], value := textBytes " b " } ∧
    decodeCommand (makeScanPayload [97] 1) = .ok { type := .scan, start := [97], limit := 1 } := by
  have hset := understood (textBytes " set a  b ") (by decide +kernel)
  have hscan := understood (textBytes "SCAN a all") (by decide +kernel)
  have h₁ : typed (textBytes " set a  b ") = some (.set [97] (textBytes " b ")) := by
    decide +kernel
  have h₂ : typed (textBytes "SCAN a all") = some (.scan [97] 1) := by decide +kernel
  rw [h₁] at hset
  rw [h₂] at hscan
  obtain ⟨f, hf, hread⟩ := hset
  obtain ⟨g, hg, hread'⟩ := hscan
  have hf' : input (textBytes " set a  b ") = .request (makeSetPayload [97] (textBytes " b ")) := by
    decide +kernel
  have hg' : input (textBytes "SCAN a all") = .request (makeScanPayload [97] 1) := by
    decide +kernel
  cases hf.symm.trans hf'
  cases hg.symm.trans hg'
  rw [if_neg (by decide +kernel), if_pos (by decide)] at hread hread'
  exact ⟨hread.1, hread.2, hread'.2⟩

/-! ## What can be typed -/

def NoSpace (b : Bytes) : Prop := ∀ x ∈ b, isSpace x = false

instance (b : Bytes) : Decidable (NoSpace b) := List.decidableBAll (fun x => isSpace x = false) b

/-- What can be asked for at the prompt: no key has a space in it, no value a
line break; without a key there is no value, without a prefix no limit. -/
def Request.Typable : Request → Prop
  | .ping => True
  | .set key value => NoSpace key ∧ 10 ∉ value ∧ (key = [] → value = [])
  | .get key => NoSpace key
  | .del key => NoSpace key
  | .scan start limit => NoSpace start ∧ limit < 2 ^ 16 ∧ (start = [] → limit = 20)

theorem noSpace_cutWord (b : Bytes) : NoSpace (cutWord b).1 := by
  intro x hx
  have hspace := List.mem_takeWhile_imp hx
  simpa using hspace

/-- Without a first word there is nothing behind it. -/
theorem cutWord_rest {b : Bytes} (h : (cutWord b).1 = []) : (cutWord b).2 = [] := by
  rw [cutWord] at h ⊢
  dsimp only at h ⊢
  cases hb : b.dropWhile isSpace with
  | nil => rfl
  | cons x xs =>
      have hne : b.dropWhile isSpace ≠ [] := by rw [hb]; exact List.cons_ne_nil x xs
      have hx := List.head_dropWhile_not isSpace hne
      simp only [hb, List.head_cons] at hx
      rw [hb, List.takeWhile_cons_of_pos (by simp [hx])] at h
      cases h

theorem cutWord_append {sp word rest : Bytes} (hsp : ∀ x ∈ sp, isSpace x = true)
    (hword : NoSpace word) (hne : word ≠ []) (hrest : Ends rest) :
    cutWord (sp ++ (word ++ rest)) = (word, rest) := by
  have hskip : (sp ++ (word ++ rest)).dropWhile isSpace = word ++ rest := by
    refine (takeWhile_append_of_head hsp fun x hx => ?_).2
    cases word with
    | nil => exact absurd rfl hne
    | cons y ys =>
        cases hx
        exact hword x List.mem_cons_self
  have hcut : (word ++ rest).takeWhile (!isSpace ·) = word ∧
      (word ++ rest).dropWhile (!isSpace ·) = rest :=
    takeWhile_append_of_head (fun x hx => by simp [hword x hx]) fun x hx => by simp [hrest x hx]
  rw [cutWord, hskip, hcut.1, hcut.2]

theorem ends_blank (b : Bytes) : Ends (32 :: b) := by
  rintro x ⟨⟩
  rfl

theorem ends_nil : Ends [] := by
  rintro x ⟨⟩

theorem isSpace_of_digit {b : UInt8} (h : isDigit b = true) : isSpace b = false := by
  simp only [isDigit, decide_eq_true_eq, UInt8.le_iff_toNat_le, UInt8.reduceToNat] at h
  simp only [isSpace, decide_eq_false_iff_not, ← UInt8.toNat_inj, UInt8.le_iff_toNat_le,
    UInt8.reduceToNat]
  omega

theorem isSpace_blank : ∀ x ∈ ([32] : Bytes), isSpace x = true := by
  intro x hx
  rw [List.mem_singleton.mp hx]
  rfl

/-- A limit that is written out. -/
theorem typedLimit_decimal {n : Nat} (hn : 1 ≤ n ∧ n ≤ 2 ^ 16) :
    typedLimit (32 :: decimal n) = n % 2 ^ 16 := by
  have hhead : ∀ x ∈ (decimal n).head?, isSpace x = false := fun x hx =>
    isSpace_of_digit (isDigit_of_mem_decimal (List.mem_of_mem_head? hx))
  have hskip := (takeWhile_append_of_head isSpace_blank hhead).2
  have hscan : scanInt (decimal n ++ []) = some ((n : Int), []) :=
    scanInt_render n (by rintro x ⟨⟩)
  rw [List.append_nil] at hscan
  rw [List.singleton_append] at hskip
  rw [typedLimit, hskip, if_neg (decimal_ne_nil n), hscan]
  dsimp only
  rw [limit16, min_eq_right (by omega), max_eq_right (by omega), Int.toNat_natCast]

theorem not_mem_of_noSpace {b : Bytes} (h : NoSpace b) : (10 : UInt8) ∉ b := fun hmem =>
  absurd (h 10 hmem) (by decide)

/-- A line that asks for a request. -/
def Request.line : Request → Bytes
  | .ping => textBytes "PING"
  | .set key value =>
      textBytes "SET" ++ if key = [] then [] else 32 :: (key ++ 32 :: value)
  | .get key => textBytes "GET" ++ 32 :: key
  | .del key => textBytes "DEL" ++ 32 :: key
  | .scan start limit =>
      textBytes "SCAN" ++ if start = [] then []
        else 32 :: (start ++ 32 :: decimal (if limit = 0 then 2 ^ 16 else limit))

theorem cutWord_blank {name rest : Bytes} (hname : NoSpace name) (hne : name ≠ [])
    (hrest : Ends rest) : cutWord (32 :: (name ++ rest)) = (name, rest) :=
  @cutWord_append [32] name rest isSpace_blank hname hne hrest

theorem cutWord_last {name : Bytes} (hname : NoSpace name) :
    cutWord (32 :: name) = (name, []) := by
  by_cases hne : name = []
  · subst hne; rfl
  · have h := cutWord_blank hname hne ends_nil
    rwa [List.append_nil] at h

/-- A command word in front of its arguments. -/
theorem typed_append {cmd : String} {args name rest : Bytes} {r : Option Request}
    (hcmd : textBytes cmd ≠ [] ∧ NoSpace (textBytes cmd)) (hargs : Ends args)
    (hcut : cutWord args = (name, rest)) (hr : typedAs (textBytes cmd) name rest = r) :
    typed (textBytes cmd ++ args) = r := by
  have hword : cutWord (textBytes cmd ++ args) = (textBytes cmd, args) :=
    @cutWord_append [] (textBytes cmd) args (by simp) hcmd.2 hcmd.1 hargs
  rw [typed, hword]
  dsimp only
  rw [hcut]
  exact hr

theorem typed_line {r : Request} (h : r.Typable) : typed r.line = some r := by
  cases r with
  | ping => decide +kernel
  | set key value =>
      obtain ⟨hkey, hvalue, hnone⟩ := h
      by_cases hne : key = []
      · obtain rfl := hnone hne
        subst hne
        decide +kernel
      have htake : (32 :: value).takeWhile (· ≠ 10) = 32 :: value := by
        refine List.takeWhile_eq_self_iff.mpr fun x hx => ?_
        rcases List.mem_cons.mp hx with rfl | hx
        · rfl
        · simpa using fun h : x = 10 => hvalue (h ▸ hx)
      rw [Request.line, if_neg hne]
      refine typed_append (by decide +kernel) (ends_blank _)
        (cutWord_blank hkey hne (ends_blank value)) ?_
      rw [typedAs, if_neg (by decide +kernel), if_pos (by decide +kernel), htake]
      rfl
  | get key =>
      refine typed_append (by decide +kernel) (ends_blank key) (cutWord_last h) ?_
      rw [typedAs, if_neg (by decide +kernel), if_neg (by decide +kernel),
        if_pos (by decide +kernel)]
  | del key =>
      refine typed_append (by decide +kernel) (ends_blank key) (cutWord_last h) ?_
      rw [typedAs, if_neg (by decide +kernel), if_neg (by decide +kernel),
        if_neg (by decide +kernel), if_pos (by decide +kernel)]
  | scan start limit =>
      obtain ⟨hstart, hlimit, hnone⟩ := h
      by_cases hne : start = []
      · obtain rfl := hnone hne
        subst hne
        decide +kernel
      rw [Request.line, if_neg hne]
      refine typed_append (by decide +kernel) (ends_blank _)
        (cutWord_blank hstart hne (ends_blank _)) ?_
      -- a limit of 0 is reached through 65536, which loses its upper bits
      have hread : typedLimit (32 :: decimal (if limit = 0 then 2 ^ 16 else limit)) = limit := by
        rw [typedLimit_decimal (by split <;> omega)]
        split <;> omega
      rw [typedAs, if_neg (by decide +kernel), if_neg (by decide +kernel),
        if_neg (by decide +kernel), if_neg (by decide +kernel), if_pos (by decide +kernel), hread]

theorem not_mem_line {r : Request} (h : r.Typable) : (10 : UInt8) ∉ r.line := by
  cases r with
  | ping => decide +kernel
  | set key value =>
      obtain ⟨hkey, hvalue, -⟩ := h
      have hcmd : (10 : UInt8) ∉ textBytes "SET" := by decide +kernel
      have hkey := not_mem_of_noSpace hkey
      rw [Request.line]
      split <;> simp [hcmd, hkey, hvalue]
  | get key =>
      have hcmd : (10 : UInt8) ∉ textBytes "GET" := by decide +kernel
      simp [Request.line, hcmd, not_mem_of_noSpace h]
  | del key =>
      have hcmd : (10 : UInt8) ∉ textBytes "DEL" := by decide +kernel
      simp [Request.line, hcmd, not_mem_of_noSpace h]
  | scan start limit =>
      have hcmd : (10 : UInt8) ∉ textBytes "SCAN" := by decide +kernel
      have hstart := not_mem_of_noSpace h.1
      have hdigits : ∀ n, (10 : UInt8) ∉ decimal n := fun n =>
        not_mem_of_noSpace fun x hx => isSpace_of_digit (isDigit_of_mem_decimal hx)
      rw [Request.line]
      split <;> simp [hcmd, hstart, hdigits]

/-- **What can be typed**: some line asks for a request, and is sent as it,
exactly if its key has no space in it, its value no line break, and what is
behind the key or prefix is missing with it. -/
theorem typable_iff (r : Request) :
    (∃ line : Bytes, 10 ∉ line ∧ typed line = some r ∧ input line = .request r.frame) ↔
      r.Typable := by
  refine ⟨?_, fun h => ⟨r.line, not_mem_line h, typed_line h, input_of_typed (typed_line h)⟩⟩
  rintro ⟨line, -, hline, -⟩
  obtain ⟨name, rest, hcut, hcases⟩ := typed_cases hline
  have hname : NoSpace name := by
    have h := noSpace_cutWord (cutWord line).2
    rwa [hcut] at h
  have hrest : name = [] → rest = [] := by
    have h : (cutWord (cutWord line).2).1 = [] → (cutWord (cutWord line).2).2 = [] := cutWord_rest
    rwa [hcut] at h
  rcases hcases with rfl | rfl | rfl | rfl | rfl
  · trivial
  · refine ⟨hname, fun hmem => ?_, fun hempty => by rw [hrest hempty]; rfl⟩
    have hnot := List.mem_takeWhile_imp ((dropBlank_sublist _).subset hmem)
    simp at hnot
  · exact hname
  · exact hname
  · exact ⟨hname, typedLimit_lt rest, fun hempty => by rw [hrest hempty]; rfl⟩

end Cli

end VaultKV
