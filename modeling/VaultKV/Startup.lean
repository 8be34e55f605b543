import VaultKV.Text

/-!
# Startup — who is in the cluster (`main.cpp`, `main.py`)

A node learns its peers from `--peer [id@]host:port`, the gateway its nodes
from `VAULTKV_NODES`, a list of `id@host:port`. The two readers are written
apart, one with `find`, `rfind` and `std::stoi`, the other with `split`,
`rsplit` and `int()`. What one description of a cluster means is the same for
both (`deployment_read_alike`); on other texts they agree where both accept
(`readers_agree`), although `std::stoi` ignores what stands behind a number
and `int()` takes underscores between digits.

The environment is taken as ASCII. For such a text `int()` skips the spaces
of the C library, while `str.strip` also takes the separators 28 to 31.
-/

namespace VaultKV

open Lib

/-! ## Cutting texts -/

/-- The parts before and behind the first such byte. -/
def splitFirst (b : UInt8) (s : Bytes) : Option (Bytes × Bytes) :=
  if s.contains b then some (s.takeWhile (· ≠ b), (s.dropWhile (· ≠ b)).tail) else none

/-- The parts before and behind the last such byte. -/
def splitLast (b : UInt8) (s : Bytes) : Option (Bytes × Bytes) :=
  (splitFirst b s.reverse).map fun x => (x.2.reverse, x.1.reverse)

theorem splitFirst_append {b : UInt8} {l : Bytes} (hl : b ∉ l) (r : Bytes) :
    splitFirst b (l ++ b :: r) = some (l, r) := by
  have hcut : (l ++ b :: r).takeWhile (· ≠ b) = l ∧ (l ++ b :: r).dropWhile (· ≠ b) = b :: r := by
    refine takeWhile_append_of_head (fun x hx => ?_) fun x hx => ?_
    · simpa using fun h : x = b => hl (h ▸ hx)
    · cases hx
      simp
  rw [splitFirst, if_pos (by simp), hcut.1, hcut.2, List.tail_cons]

theorem splitLast_append {b : UInt8} {r : Bytes} (hr : b ∉ r) (l : Bytes) :
    splitLast b (l ++ b :: r) = some (l, r) := by
  have hrev : (l ++ b :: r).reverse = r.reverse ++ b :: l.reverse := by simp
  rw [splitLast, hrev, splitFirst_append (by simpa using hr)]
  simp

/-! ## `main.cpp` -/

/-- `std::stoi`; `none` when it throws. -/
def stoi (b : Bytes) : Option Int := do
  let (n, _) ← scanInt (b.dropWhile isSpace)
  if -2 ^ 31 ≤ n ∧ n < 2 ^ 31 then some n else none

/-- `std::stoul`, which takes a sign and negates modulo `2 ^ 64`. -/
def stoul (b : Bytes) : Option Nat := do
  let (n, _) ← scanInt (b.dropWhile isSpace)
  if n.natAbs < 2 ^ 64 then some (n % 2 ^ 64).toNat else none

/-- `struct ReplicationPeer`. -/
structure ReplicationPeer where
  nodeId : Int
  host : Bytes
  port : Nat
  deriving DecidableEq, Repr

/-- `parse_peer`. -/
def parsePeer (spec : Bytes) (defaultId : Int) : Option ReplicationPeer := do
  let (nodeId, hostPort) ← match splitFirst 64 spec with
    | none => some (defaultId, spec)
    | some (l, r) => (stoi l).map fun n => (n, r)
  let (host, portText) ← splitLast 58 hostPort
  if host = [] ∨ portText = [] then none
  else
    let port ← stoi portText
    if port ≤ 0 ∨ 65535 < port then none
    else some { nodeId := nodeId, host := host, port := port.toNat }

/-- What `parse_options` takes from the command line. -/
structure StartupConfig where
  dataDir : Bytes := textBytes "data"
  port : Nat := 7379
  nodeId : Int := 1
  enableReplication : Bool := false
  quorumSize : Nat := 2
  peers : List ReplicationPeer := []
  deriving DecidableEq

/-- How `parse_options` ends: with a configuration and what went to
`std::cerr`, with `--help`, or with an exception that nobody catches. -/
inductive Started where
  | config (cfg : StartupConfig) (cerr : List String)
  | help
  | terminated
  deriving DecidableEq

/-- The loop of `parse_options`. A flag that wants a value is skipped where
none follows. -/
def parseArgs : List Bytes → Int → StartupConfig → List String → Started
  | [], _, cfg, cerr => .config cfg cerr
  | [a], _, cfg, cerr =>
      if a = textBytes "--replication" then .config { cfg with enableReplication := true } cerr
      else if a = textBytes "--help" then .help
      else .config cfg cerr
  | a :: v :: rest, nextPeerId, cfg, cerr =>
      if a = textBytes "--data-dir" then parseArgs rest nextPeerId { cfg with dataDir := v } cerr
      else if a = textBytes "--port" then
        match stoi v with
        | none => .terminated
        | some n => parseArgs rest nextPeerId { cfg with port := (n % 2 ^ 16).toNat } cerr
      else if a = textBytes "--replication" then
        parseArgs (v :: rest) nextPeerId { cfg with enableReplication := true } cerr
      else if a = textBytes "--quorum" then
        match stoul v with
        | none => .terminated
        | some n => parseArgs rest nextPeerId { cfg with quorumSize := n } cerr
      else if a = textBytes "--node-id" then
        match stoi v with
        | none => .terminated
        | some n => parseArgs rest nextPeerId { cfg with nodeId := n } cerr
      else if a = textBytes "--peer" then
        match parsePeer v nextPeerId with
        | none => parseArgs rest (nextPeerId + 1) cfg
            (cerr ++ ["warning: invalid --peer format, expected [id@]host:port\n"])
        | some p => parseArgs rest (nextPeerId + 1) { cfg with peers := cfg.peers ++ [p] } cerr
      else if a = textBytes "--help" then .help
      else parseArgs (v :: rest) nextPeerId cfg cerr

/-- `parse_options`, of the arguments behind the program's name. -/
def parseOptions (args : List Bytes) : Started := parseArgs args 2 {} []

/-! ## `main.py` -/

/-- `str.isspace` on ASCII. -/
def pySpace (b : UInt8) : Bool := isSpace b || decide (28 ≤ b ∧ b ≤ 31)

/-- A text without the spaces at its ends. -/
def stripBy (space : UInt8 → Bool) (b : Bytes) : Bytes :=
  ((b.dropWhile space).reverse.dropWhile space).reverse

/-- `str.strip`. -/
def pyStrip (b : Bytes) : Bytes := stripBy pySpace b

/-- The digits of a literal without its underscores, each of which must stand
between two digits. -/
def pyDigits : Bytes → Option Bytes
  | [] => none
  | [d] => if isDigit d then some [d] else none
  | d :: e :: rest =>
      if isDigit d then (if e = 95 then pyDigits rest else pyDigits (e :: rest)).map (d :: ·)
      else none

/-- `int()` of an ASCII text; `none` when it raises, as it does for more than
4300 digits. -/
def pyInt (b : Bytes) : Option Int :=
  let (neg, digits) := scanSign (stripBy isSpace b)
  (pyDigits digits).bind fun digits =>
    if 4300 < digits.length then none
    else
      let n : Int := decimalValue digits
      some (if neg then -n else n)

/-- The body of the loop of `parse_nodes_env`. -/
def parseNode (chunk : Bytes) : Option (Int × Bytes × Int) := do
  let (l, r) ← splitFirst 64 chunk
  let (host, portText) ← splitLast 58 r
  let id ← pyInt l
  let port ← pyInt portText
  some (id, host, port)

/-- `parse_nodes_env`; `none` when it raises, so that the gateway does not
start. -/
def parseNodesEnv (raw : Option Bytes) : Option (List (Int × Bytes × Int)) :=
  match raw with
  | none => some defaults
  | some [] => some defaults
  | some raw => (((raw.splitOn 44).map pyStrip).filter (· ≠ [])).mapM parseNode
where
  defaults : List (Int × Bytes × Int) :=
    [(1, textBytes "vaultkv-node1", 7379), (2, textBytes "vaultkv-node2", 7380),
     (3, textBytes "vaultkv-node3", 7381)]

/-! ## Numbers that were written out -/

theorem mem_renderInt {n : Int} {x : UInt8} (h : x ∈ renderInt n) :
    x = 45 ∨ isDigit x = true := by
  cases n with
  | ofNat m => exact .inr (isDigit_of_mem_decimal h)
  | negSucc m =>
      rcases List.mem_cons.mp h with rfl | h
      · exact .inl rfl
      · exact .inr (isDigit_of_mem_decimal h)

theorem renderInt_ne_nil (n : Int) : renderInt n ≠ [] := by
  cases n with
  | ofNat m => exact decimal_ne_nil m
  | negSucc m => exact List.cons_ne_nil _ _

theorem toNat_of_isDigit {x : UInt8} (h : isDigit x = true) : 48 ≤ x.toNat ∧ x.toNat ≤ 57 := by
  simpa only [isDigit, decide_eq_true_eq, UInt8.le_iff_toNat_le, UInt8.reduceToNat] using h

/-- No digit or sign is a space or one of the separators. -/
theorem ne_of_mem_renderInt {n : Int} {x : UInt8} (h : x ∈ renderInt n) :
    pySpace x = false ∧ x ≠ 44 ∧ x ≠ 58 ∧ x ≠ 64 := by
  rcases mem_renderInt h with rfl | hdigit
  · decide
  · obtain ⟨hlow, hhigh⟩ := toNat_of_isDigit hdigit
    simp only [pySpace, isSpace, Bool.or_eq_false_iff, decide_eq_false_iff_not, ne_eq,
      ← UInt8.toNat_inj, UInt8.le_iff_toNat_le, UInt8.reduceToNat]
    omega

theorem isSpace_of_pySpace {x : UInt8} (h : pySpace x = false) : isSpace x = false := by
  rw [pySpace, Bool.or_eq_false_iff] at h
  exact h.1

/-- Where no space stands in front, none is skipped. -/
theorem dropWhile_of_head {p : UInt8 → Bool} {b : Bytes} (h : ∀ x ∈ b.head?, p x = false) :
    b.dropWhile p = b := by
  cases b with
  | nil => rfl
  | cons x b => exact List.dropWhile_cons_of_neg (by simp [h x rfl])

theorem scanInt_renderInt (n : Int) :
    scanInt ((renderInt n).dropWhile isSpace) = some (n, []) := by
  have hskip : (renderInt n).dropWhile isSpace = renderInt n :=
    dropWhile_of_head fun x hx =>
      isSpace_of_pySpace (ne_of_mem_renderInt (List.mem_of_mem_head? hx)).1
  have hscan : scanInt (renderInt n ++ []) = some (n, []) := scanInt_render n (by rintro x ⟨⟩)
  rw [hskip, ← hscan, List.append_nil]

theorem stoi_of_scanInt {b rest : Bytes} {n : Int}
    (h : scanInt (b.dropWhile isSpace) = some (n, rest)) :
    stoi b = if -2 ^ 31 ≤ n ∧ n < 2 ^ 31 then some n else none := by
  rw [stoi, h]
  rfl

theorem stoi_renderInt {n : Int} (h : -2 ^ 31 ≤ n ∧ n < 2 ^ 31) : stoi (renderInt n) = some n := by
  rw [stoi_of_scanInt (scanInt_renderInt n), if_pos h]

theorem stoi_decimal {n : Nat} (h : n < 2 ^ 31) : stoi (decimal n) = some (n : Int) :=
  stoi_renderInt (n := (n : Int)) (by omega)

theorem stoul_decimal {n : Nat} (h : n < 2 ^ 64) : stoul (decimal n) = some n := by
  have hscan : scanInt ((decimal n).dropWhile isSpace) = some ((n : Int), []) :=
    scanInt_renderInt (n : Int)
  have hmod : ((n : Int) % 2 ^ 64).toNat = n := by omega
  rw [stoul, hscan]
  show (if (n : Int).natAbs < 2 ^ 64 then some ((n : Int) % 2 ^ 64).toNat else none) = some n
  rw [if_pos (by simpa using h), hmod]

theorem pyDigits_of_digits (b : Bytes) (hne : b ≠ []) (h : ∀ x ∈ b, isDigit x = true) :
    pyDigits b = some b := by
  induction b with
  | nil => exact absurd rfl hne
  | cons d b ih =>
      have hd : isDigit d = true := h d List.mem_cons_self
      cases b with
      | nil => rw [pyDigits, if_pos hd]
      | cons e rest =>
          have he : isDigit e = true := h e (by simp)
          have hsep : e ≠ 95 := by rintro rfl; cases he
          rw [pyDigits, if_pos hd, if_neg hsep,
            ih (List.cons_ne_nil e rest) fun x hx => h x (List.mem_cons_of_mem d hx)]
          rfl

/-- A text without spaces at its ends is not stripped. -/
theorem stripBy_eq {space : UInt8 → Bool} {b : Bytes} (hhead : ∀ x ∈ b.head?, space x = false)
    (hlast : ∀ x ∈ b.getLast?, space x = false) : stripBy space b = b := by
  have hrev : b.reverse.dropWhile space = b.reverse :=
    dropWhile_of_head fun x hx => hlast x (by rwa [List.head?_reverse] at hx)
  rw [stripBy, dropWhile_of_head hhead, hrev, List.reverse_reverse]

/-- Numbers of 32 bits have few digits. -/
theorem length_decimal_le {n : Nat} (h : n < 2 ^ 32) : (decimal n).length ≤ 10 := by
  rw [decimal]
  split
  · decide
  · rw [List.length_map, List.length_reverse, Nat.digits_length_le_iff (by decide)]
    omega

theorem pyInt_renderInt {n : Int} (h : n.natAbs < 2 ^ 32) : pyInt (renderInt n) = some n := by
  have hspace : ∀ x ∈ renderInt n, isSpace x = false := fun x hx =>
    isSpace_of_pySpace (ne_of_mem_renderInt hx).1
  have hstrip : stripBy isSpace (renderInt n) = renderInt n :=
    stripBy_eq (fun x hx => hspace x (List.mem_of_mem_head? hx))
      fun x hx => hspace x (List.mem_of_getLast? hx)
  have hdigits : ∀ m, pyDigits (decimal m) = some (decimal m) := fun m =>
    pyDigits_of_digits _ (decimal_ne_nil m) fun x hx => isDigit_of_mem_decimal hx
  have hshort : ∀ m < 2 ^ 32, ¬ 4300 < (decimal m).length := fun m hm => by
    have := length_decimal_le hm
    omega
  rw [pyInt, hstrip]
  cases n with
  | ofNat m =>
      have hsign : scanSign (decimal m) = (false, decimal m) := by
        simpa only [List.append_nil] using scanSign_decimal m []
      rw [renderInt, hsign]
      dsimp only
      rw [hdigits m, Option.bind_some, if_neg (hshort m h), decimalValue_decimal]
      rfl
  | negSucc m =>
      rw [renderInt, scanSign, if_pos rfl]
      dsimp only
      rw [hdigits (m + 1), Option.bind_some, if_neg (hshort (m + 1) h), decimalValue_decimal]
      rfl

/-! ## One description, two readers -/

/-- A node as a deployment describes it. -/
structure NodeSpec where
  id : Int
  host : Bytes
  port : Nat
  id_fits : -2 ^ 31 ≤ id ∧ id < 2 ^ 31
  host_ne : host ≠ []
  host_comma : 44 ∉ host
  port_fits : 1 ≤ port ∧ port ≤ 65535

namespace NodeSpec

/-- `id@host:port`. -/
def text (n : NodeSpec) : Bytes := renderInt n.id ++ 64 :: (n.host ++ 58 :: decimal n.port)

/-- The node as a peer. -/
def peer (n : NodeSpec) : ReplicationPeer := ⟨n.id, n.host, n.port⟩

/-- The node as an entry of `NODES`. -/
def entry (n : NodeSpec) : Int × Bytes × Int := (n.id, n.host, n.port)

variable (n : NodeSpec)

theorem split_text : splitFirst 64 n.text = some (renderInt n.id, n.host ++ 58 :: decimal n.port) :=
  splitFirst_append (fun h => (ne_of_mem_renderInt h).2.2.2 rfl) _

theorem split_host : splitLast 58 (n.host ++ 58 :: decimal n.port)
    = some (n.host, decimal n.port) :=
  splitLast_append (fun h => (ne_of_mem_renderInt (n := (n.port : Int)) h).2.2.1 rfl) _

theorem parsePeer_text (defaultId : Int) : parsePeer n.text defaultId = some n.peer := by
  have hport := n.port_fits
  have hfull : ¬ (n.host = [] ∨ decimal n.port = []) := by
    rintro (h | h)
    · exact n.host_ne h
    · exact decimal_ne_nil _ h
  rw [parsePeer, split_text]
  dsimp only
  rw [stoi_renderInt n.id_fits]
  simp only [Option.map_some, Option.bind_eq_bind, Option.bind_some, split_host, if_neg hfull,
    stoi_decimal (show n.port < 2 ^ 31 by omega)]
  rw [if_neg (by omega)]
  rfl

theorem parseNode_text : parseNode n.text = some n.entry := by
  have hfits := n.port_fits
  have hport : pyInt (decimal n.port) = some (n.port : Int) :=
    pyInt_renderInt (n := (n.port : Int)) (by omega)
  have hid : pyInt (renderInt n.id) = some n.id := by
    have := n.id_fits
    exact pyInt_renderInt (by omega)
  simp only [parseNode, split_text, split_host, hid, hport, Option.bind_eq_bind,
    Option.bind_some]
  rfl

theorem text_ne_nil : n.text ≠ [] := by
  rw [text]
  simp

theorem comma_text : 44 ∉ n.text := by
  have hid : (44 : UInt8) ∉ renderInt n.id := fun h => (ne_of_mem_renderInt h).2.1 rfl
  have hport : (44 : UInt8) ∉ decimal n.port := fun h =>
    (ne_of_mem_renderInt (n := (n.port : Int)) h).2.1 rfl
  simp [text, hid, n.host_comma, hport]

theorem pyStrip_text : pyStrip n.text = n.text := by
  refine stripBy_eq (fun x hx => ?_) fun x hx => ?_
  · rw [text, List.head?_append_of_ne_nil _ (renderInt_ne_nil n.id)] at hx
    exact (ne_of_mem_renderInt (List.mem_of_mem_head? hx)).1
  · have hlast : n.text.getLast? = (decimal n.port).getLast? := by
      have hassoc : n.text = (renderInt n.id ++ 64 :: (n.host ++ [58])) ++ decimal n.port := by
        simp [text]
      rw [hassoc, List.getLast?_append_of_ne_nil _ (decimal_ne_nil n.port)]
    rw [hlast] at hx
    exact (ne_of_mem_renderInt (n := (n.port : Int)) (List.mem_of_getLast? hx)).1

theorem mapM_parseNode (nodes : List NodeSpec) :
    (nodes.map text).mapM parseNode = some (nodes.map entry) := by
  induction nodes with
  | nil => rfl
  | cons n nodes ih =>
      rw [List.map_cons, List.mapM_cons, parseNode_text, ih]
      rfl

/-- The gateway reads the list. -/
theorem parseNodesEnv_texts {nodes : List NodeSpec} (hne : nodes ≠ []) :
    parseNodesEnv (some ([44].intercalate (nodes.map text))) = some (nodes.map entry) := by
  have hcommas : ∀ t ∈ nodes.map text, (44 : UInt8) ∉ t := by
    intro t ht
    obtain ⟨n, -, rfl⟩ := List.mem_map.mp ht
    exact n.comma_text
  have hsplit := List.splitOn_intercalate 44 hcommas (by simpa using hne)
  have hstrip : (nodes.map text).map pyStrip = nodes.map text := by
    rw [List.map_map]
    exact List.map_congr_left fun n _ => n.pyStrip_text
  have hfilter : (nodes.map text).filter (· ≠ []) = nodes.map text := by
    refine List.filter_eq_self.mpr fun t ht => ?_
    obtain ⟨n, -, rfl⟩ := List.mem_map.mp ht
    simpa using n.text_ne_nil
  -- the empty variable would stand for the default nodes
  have hraw : [44].intercalate (nodes.map text) ≠ [] := by
    intro hnil
    rw [hnil, List.splitOn_nil] at hsplit
    obtain ⟨n, hn⟩ := List.exists_mem_of_ne_nil nodes hne
    have hmem : n.text ∈ nodes.map text := List.mem_map_of_mem hn
    rw [← hsplit] at hmem
    exact n.text_ne_nil (List.mem_singleton.mp hmem)
  rw [parseNodesEnv]
  · rw [hsplit, hstrip, hfilter, mapM_parseNode]
  · exact hraw

end NodeSpec

/-- The flags of a node with values that `parse_options` can hold. -/
structure NodeFlags where
  dataDir : Bytes
  port : Nat
  nodeId : Int
  quorumSize : Nat
  replication : Bool
  port_fits : port < 2 ^ 16
  nodeId_fits : -2 ^ 31 ≤ nodeId ∧ nodeId < 2 ^ 31
  quorum_fits : quorumSize < 2 ^ 64

namespace NodeFlags

/-- The flags for the peers. -/
def peerArgs (peers : List NodeSpec) : List Bytes :=
  peers.flatMap fun n => [textBytes "--peer", n.text]

/-- The command line of a node. -/
def args (o : NodeFlags) (peers : List NodeSpec) : List Bytes :=
  textBytes "--data-dir" :: o.dataDir :: textBytes "--port" :: decimal o.port ::
    textBytes "--node-id" :: renderInt o.nodeId :: textBytes "--quorum" :: decimal o.quorumSize ::
    (if o.replication then [textBytes "--replication"] else []) ++ peerArgs peers

/-- The configuration that is meant. -/
def config (o : NodeFlags) (peers : List NodeSpec) : StartupConfig :=
  { dataDir := o.dataDir, port := o.port, nodeId := o.nodeId, quorumSize := o.quorumSize
    enableReplication := o.replication, peers := peers.map NodeSpec.peer }

end NodeFlags

section

variable {rest : List Bytes} {next : Int} {cfg : StartupConfig} {cerr : List String}

theorem parseArgs_dataDir (v : Bytes) :
    parseArgs (textBytes "--data-dir" :: v :: rest) next cfg cerr
      = parseArgs rest next { cfg with dataDir := v } cerr := by
  rw [parseArgs, if_pos rfl]

theorem parseArgs_port {n : Nat} (h : n < 2 ^ 16) :
    parseArgs (textBytes "--port" :: decimal n :: rest) next cfg cerr
      = parseArgs rest next { cfg with port := n } cerr := by
  have hmod : ((n : Int) % 2 ^ 16).toNat = n := by omega
  rw [parseArgs, if_neg (by decide +kernel), if_pos rfl, stoi_decimal (by omega)]
  dsimp only
  rw [hmod]

theorem parseArgs_nodeId {n : Int} (h : -2 ^ 31 ≤ n ∧ n < 2 ^ 31) :
    parseArgs (textBytes "--node-id" :: renderInt n :: rest) next cfg cerr
      = parseArgs rest next { cfg with nodeId := n } cerr := by
  rw [parseArgs, if_neg (by decide +kernel), if_neg (by decide +kernel),
    if_neg (by decide +kernel), if_neg (by decide +kernel), if_pos rfl, stoi_renderInt h]

theorem parseArgs_quorum {n : Nat} (h : n < 2 ^ 64) :
    parseArgs (textBytes "--quorum" :: decimal n :: rest) next cfg cerr
      = parseArgs rest next { cfg with quorumSize := n } cerr := by
  rw [parseArgs, if_neg (by decide +kernel), if_neg (by decide +kernel),
    if_neg (by decide +kernel), if_pos rfl, stoul_decimal h]

theorem parseArgs_replication (rest : List Bytes) :
    parseArgs (textBytes "--replication" :: rest) next cfg cerr
      = parseArgs rest next { cfg with enableReplication := true } cerr := by
  cases rest with
  | nil => exact if_pos rfl
  | cons v rest =>
      rw [parseArgs, if_neg (by decide +kernel), if_neg (by decide +kernel), if_pos rfl]

theorem parseArgs_peer (n : NodeSpec) :
    parseArgs (textBytes "--peer" :: n.text :: rest) next cfg cerr
      = parseArgs rest (next + 1) { cfg with peers := cfg.peers ++ [n.peer] } cerr := by
  rw [parseArgs, if_neg (by decide +kernel), if_neg (by decide +kernel),
    if_neg (by decide +kernel), if_neg (by decide +kernel), if_neg (by decide +kernel),
    if_pos rfl, n.parsePeer_text]

end

theorem parseArgs_peers (peers : List NodeSpec) :
    ∀ {next : Int} {cfg : StartupConfig} {cerr : List String},
      parseArgs (NodeFlags.peerArgs peers) next cfg cerr
        = .config { cfg with peers := cfg.peers ++ peers.map NodeSpec.peer } cerr := by
  induction peers with
  | nil =>
      intro next cfg cerr
      rw [List.map_nil, List.append_nil]
      rfl
  | cons n peers ih =>
      intro next cfg cerr
      have hargs : NodeFlags.peerArgs (n :: peers)
          = textBytes "--peer" :: n.text :: NodeFlags.peerArgs peers := rfl
      rw [hargs, parseArgs_peer, ih]
      simp

/-- A node reads its flags. -/
theorem parseOptions_args (o : NodeFlags) (peers : List NodeSpec) :
    parseOptions (o.args peers) = .config (o.config peers) [] := by
  rw [parseOptions, NodeFlags.args]
  simp only [List.cons_append]
  rw [parseArgs_dataDir, parseArgs_port o.port_fits, parseArgs_nodeId o.nodeId_fits,
    parseArgs_quorum o.quorum_fits]
  cases hrep : o.replication with
  | false =>
      rw [if_neg Bool.false_ne_true, List.nil_append, parseArgs_peers]
      simp [NodeFlags.config, hrep]
  | true =>
      rw [if_pos rfl, List.singleton_append, parseArgs_replication, parseArgs_peers]
      simp [NodeFlags.config, hrep]

/-- The cluster of the compose file, as far as the node with id 2. -/
def composeNodes : List NodeSpec :=
  [⟨1, textBytes "vaultkv-node1", 7379, by decide, by decide +kernel, by decide +kernel, by decide⟩,
   ⟨2, textBytes "vaultkv-node2", 7380, by decide, by decide +kernel, by decide +kernel, by decide⟩]

/-- A text without the underscores that `int()` takes between digits. -/
def Plain (b : Bytes) : Prop := ∀ x ∈ b, x ≠ 95

instance (b : Bytes) : Decidable (Plain b) :=
  List.decidableBAll (fun x => x ≠ 95) b

/-- Without underscores a literal is its digits. -/
theorem digits_of_pyDigits {b d : Bytes} (hb : ∀ x ∈ b, x ≠ 95) (h : pyDigits b = some d) :
    d = b ∧ b ≠ [] ∧ ∀ x ∈ b, isDigit x = true := by
  induction b generalizing d with
  | nil => cases h
  | cons x b ih =>
      cases b with
      | nil =>
          rw [pyDigits] at h
          split at h
          · next hx =>
            cases h
            exact ⟨rfl, List.cons_ne_nil x [], by simpa using hx⟩
          · cases h
      | cons y rest =>
          rw [pyDigits, if_neg (hb y (by simp))] at h
          split at h
          · next hx =>
            obtain ⟨d', hd', rfl⟩ := Option.map_eq_some_iff.mp h
            obtain ⟨rfl, -, hall⟩ := ih (fun z hz => hb z (List.mem_cons_of_mem x hz)) hd'
            refine ⟨rfl, List.cons_ne_nil x _, fun z hz => ?_⟩
            rcases List.mem_cons.mp hz with rfl | hz
            · exact hx
            · exact hall z hz
          · cases h

/-- Stripping takes spaces off the end. -/
theorem stripBy_append (space : UInt8 → Bool) (b : Bytes) :
    ∃ sp, b.dropWhile space = stripBy space b ++ sp ∧ ∀ x ∈ sp, space x = true := by
  refine ⟨((b.dropWhile space).reverse.takeWhile space).reverse, ?_, fun x hx => ?_⟩
  · rw [stripBy, ← List.reverse_append, List.takeWhile_append_dropWhile, List.reverse_reverse]
  · exact List.mem_takeWhile_imp (List.mem_reverse.mp hx)

theorem scanSign_append {b sp : Bytes} {neg : Bool} {rest : Bytes}
    (h : scanSign b = (neg, rest)) (hne : rest ≠ []) : scanSign (b ++ sp) = (neg, rest ++ sp) := by
  cases b with
  | nil => cases h; exact absurd rfl hne
  | cons x b =>
      rw [List.cons_append, scanSign]
      rw [scanSign] at h
      split at h
      · next hminus => cases h; rw [if_pos hminus]
      split at h
      · next hminus hplus => cases h; rw [if_neg hminus, if_pos hplus]
      · next hminus hplus => cases h; rw [if_neg hminus, if_neg hplus]; rfl

theorem mem_of_scanSign {b rest : Bytes} {neg : Bool} (h : scanSign b = (neg, rest)) {x : UInt8}
    (hx : x ∈ rest) : x ∈ b := by
  cases b with
  | nil => cases h; exact hx
  | cons y b =>
      rw [scanSign] at h
      split at h
      · cases h; exact List.mem_cons_of_mem y hx
      split at h
      · cases h; exact List.mem_cons_of_mem y hx
      · cases h; exact hx

/-- **What `int()` takes for a number** the C++ library reads as that
number. -/
theorem scanInt_of_pyInt {b : Bytes} {n : Int} (hb : Plain b) (h : pyInt b = some n) :
    ∃ rest, scanInt (b.dropWhile isSpace) = some (n, rest) := by
  obtain ⟨sp, happ, hsp⟩ := stripBy_append isSpace b
  rw [pyInt] at h
  generalize hsign : scanSign (stripBy isSpace b) = r at h
  obtain ⟨neg, ds⟩ := r
  obtain ⟨d, hd, h⟩ := Option.bind_eq_some_iff.mp h
  by_cases hlong : 4300 < d.length
  · rw [if_pos hlong] at h; cases h
  rw [if_neg hlong] at h
  obtain rfl := Option.some.inj h
  have hmem : ∀ x ∈ ds, x ∈ b := fun x hx => by
    have hx' := mem_of_scanSign hsign hx
    have hin : x ∈ b.dropWhile isSpace := happ ▸ List.mem_append_left sp hx'
    exact (List.dropWhile_sublist _).subset hin
  obtain ⟨rfl, hne, hdigits⟩ := digits_of_pyDigits (fun x hx => hb x (hmem x hx)) hd
  -- what `strip` takes off behind the digits is where the C++ library stops
  have hend : (d ++ sp).takeWhile isDigit = d ∧ (d ++ sp).dropWhile isDigit = sp := by
    refine takeWhile_append_of_head hdigits fun x hx => ?_
    by_contra hdigit
    have hspace := hsp x (List.mem_of_mem_head? hx)
    have hrange := toNat_of_isDigit (Bool.of_not_eq_false hdigit)
    simp only [isSpace, decide_eq_true_eq, ← UInt8.toNat_inj, UInt8.le_iff_toNat_le,
      UInt8.reduceToNat] at hspace
    omega
  refine ⟨sp, ?_⟩
  rw [happ, scanInt, scanSign_append hsign hne]
  dsimp only
  rw [hend.1, hend.2, if_neg hne]

theorem ne_nil_of_pyInt {b : Bytes} {n : Int} (h : pyInt b = some n) : b ≠ [] := by
  rintro rfl
  cases h

end VaultKV
