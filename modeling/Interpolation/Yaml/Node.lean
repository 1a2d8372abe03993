import Interpolation.Yaml.Token

/-!
# The node of a YAML text

Tokens form a tree of scalars, sequences and mappings. Reading follows the grammar of YAML with one
token of lookahead: where a node may be missing, the next token tells whether it is, and a missing
node is an empty plain scalar. A node within a collection is read by the reader of the next deeper
level, of which there are `maxLevels`; no document may be nested that deeply anyway.
-/

namespace Interpolation.Yaml

/-- What may stand before the content of a node: an anchor and a resolved tag. -/
structure Properties where
  anchor : Option Nat
  tag : Option TagText
  deriving DecidableEq, Repr

/-- A part of a YAML text. -/
inductive Node where
  | aliasOf (anchor : Nat)
  | scalar (properties : Properties) (plain : Bool) (text : String)
  | sequence (properties : Properties) (items : List Node)
  | mapping (properties : Properties) (entries : List (Node × Node))
  deriving Repr

namespace Node

abbrev Tokens := List (Token Nat)

/-- What a node may be besides a scalar or a flow collection. -/
inductive Setting where
  /-- Nothing else. -/
  | flow
  /-- A block collection. -/
  | block
  /-- A block collection, or a sequence at the column of the mapping around it. -/
  | inMapping
  deriving DecidableEq, Repr

/-- Reads a node from tokens; the rest of them comes with it. -/
abbrev Reader := Setting → Tokens → Option (Node × Tokens)

/-- The node that is not there. -/
def missing : Node := scalar ⟨none, none⟩ true ""

/-- Reads items until `step` finds the end of them. As each takes a token, their number is at most
that of the tokens, which is the first argument. -/
def many {α : Type} (step : Tokens → Option (Option α × Tokens)) :
    Nat → Tokens → Option (List α × Tokens)
  | 0, _ => none
  | n + 1, ts =>
    match step ts with
    | none => none
    | some (none, rest) => some ([], rest)
    | some (some a, rest) =>
      match many step n rest with
      | none => none
      | some (as, rest) => some (a :: as, rest)

/-- Reads a node, or none if the next token is one of those that stand behind a missing node. -/
def readOr (read : Reader) (setting : Setting) (behind : List (Token Nat)) (ts : Tokens) :
    Option (Node × Tokens) :=
  if ts.head?.any (· ∈ behind) then some (missing, ts) else read setting ts

/-! ## Block collections -/

/-- An item of a block sequence, or its end. -/
def blockItem (read : Reader) : Tokens → Option (Option Node × Tokens)
  | .blockEntry :: ts => do
    let (n, rest) ← readOr read .block [.blockEntry, .blockEnd] ts
    some (some n, rest)
  | .blockEnd :: ts => some (none, ts)
  | _ => none

/-- An item of a sequence at the column of the mapping around it, or its end. -/
def flushItem (read : Reader) : Tokens → Option (Option Node × Tokens)
  | .blockEntry :: ts => do
    let (n, rest) ← readOr read .block [.blockEntry, .key, .value, .blockEnd] ts
    some (some n, rest)
  | ts => some (none, ts)

/-- A value of a block mapping. -/
def blockValue (read : Reader) : Tokens → Option (Node × Tokens)
  | .value :: ts => readOr read .inMapping [.key, .value, .blockEnd] ts
  | ts => some (missing, ts)

/-- An entry of a block mapping, or its end. -/
def blockEntry (read : Reader) : Tokens → Option (Option (Node × Node) × Tokens)
  | .key :: ts => do
    let (k, ts) ← readOr read .inMapping [.key, .value, .blockEnd] ts
    let (v, ts) ← blockValue read ts
    some (some (k, v), ts)
  | .blockEnd :: ts => some (none, ts)
  | _ => none

/-! ## Flow collections -/

/-- A value within a flow collection that `stop` ends. -/
def flowValue (read : Reader) (stop : Token Nat) : Tokens → Option (Node × Tokens)
  | .value :: ts => readOr read .flow [.flowEntry, stop] ts
  | ts => some (missing, ts)

/-- An item of a flow sequence; it may be a mapping of one entry. A key that is missing there takes
the token behind it along. -/
def flowItem (read : Reader) : Tokens → Option (Node × Tokens)
  | .key :: ts => do
    let (k, ts) ← match ts with
      | .value :: ts => some (missing, ts)
      | .flowEntry :: ts => some (missing, ts)
      | .flowSequenceEnd :: ts => some (missing, ts)
      | ts => read .flow ts
    let (v, ts) ← flowValue read .flowSequenceEnd ts
    some (mapping ⟨none, none⟩ [(k, v)], ts)
  | ts => read .flow ts

/-- An entry of a flow mapping; it may have no value. -/
def flowPair (read : Reader) : Tokens → Option ((Node × Node) × Tokens)
  | .key :: ts => do
    let (k, ts) ← readOr read .flow [.value, .flowEntry, .flowMappingEnd] ts
    let (v, ts) ← flowValue read .flowMappingEnd ts
    some ((k, v), ts)
  | ts => do
    let (k, ts) ← read .flow ts
    some ((k, missing), ts)

/-- What follows an item of a flow collection: a comma and another item, or the end. A comma may
stand before the end. -/
def flowNext {α : Type} (item : Tokens → Option (α × Tokens)) (stop : Token Nat) :
    Tokens → Option (Option α × Tokens)
  | [] => none
  | t :: ts =>
    if t = stop then some (none, ts)
    else if t ≠ .flowEntry then none
    else if ts.head? = some stop then some (none, ts.drop 1)
    else do
      let (a, ts) ← item ts
      some (some a, ts)

/-- The items of a flow collection. -/
def flowItems {α : Type} (count : Nat) (item : Tokens → Option (α × Tokens)) (stop : Token Nat)
    (ts : Tokens) : Option (List α × Tokens) :=
  if ts.head? = some stop then some ([], ts.drop 1)
  else do
    let (a, ts) ← item ts
    let (as, ts) ← many (flowNext item stop) count ts
    some (a :: as, ts)

/-! ## Nodes -/

/-- The expansions of tag handles. -/
abbrev Handles := List (String × TagText)

/-- A tag in full. -/
def resolveTag? (handles : Handles) (handle : String) (suffix : TagText) : Option TagText :=
  if handle = "" then some suffix else (handles.lookup handle).map (· ++ suffix)

/-- Reads an anchor and a tag in either order, both optional. -/
def readProperties (handles : Handles) : Tokens → Option (Properties × Tokens)
  | .anchor n :: .tag h s :: ts => (resolveTag? handles h s).map fun t ↦ (⟨some n, some t⟩, ts)
  | .anchor n :: ts => some (⟨some n, none⟩, ts)
  | .tag h s :: .anchor n :: ts => (resolveTag? handles h s).map fun t ↦ (⟨some n, some t⟩, ts)
  | .tag h s :: ts => (resolveTag? handles h s).map fun t ↦ (⟨none, some t⟩, ts)
  | ts => some (⟨none, none⟩, ts)

/-- Reads the content of a node behind its properties, where the text has `count` tokens. -/
def readContent (count : Nat) (read : Reader) (setting : Setting) (p : Properties) :
    Tokens → Option (Node × Tokens)
  | .scalar plain text :: ts => some (scalar p plain text, ts)
  | .flowSequenceStart :: ts => do
    let (items, ts) ← flowItems count (flowItem read) .flowSequenceEnd ts
    some (sequence p items, ts)
  | .flowMappingStart :: ts => do
    let (entries, ts) ← flowItems count (flowPair read) .flowMappingEnd ts
    some (mapping p entries, ts)
  | ts =>
    let other := if p = ⟨none, none⟩ then none else some (scalar p true "", ts)
    match setting, ts with
    | .inMapping, .blockEntry :: _ => do
      let (items, ts) ← many (flushItem read) count ts
      some (sequence p items, ts)
    | .flow, _ => other
    | _, .blockSequenceStart :: ts => do
      let (items, ts) ← many (blockItem read) count ts
      some (sequence p items, ts)
    | _, .blockMappingStart :: ts => do
      let (entries, ts) ← many (blockEntry read) count ts
      some (mapping p entries, ts)
    | _, _ => other

/-- Reads a node, given the reader of the nodes within it. -/
def readNode (count : Nat) (handles : Handles) (read : Reader) : Reader := fun setting ts ↦
  match ts with
  | .aliasOf n :: ts => some (aliasOf n, ts)
  | ts => do
    let (p, ts) ← readProperties handles ts
    readContent count read setting p ts

/-- How deep nodes are read. -/
def maxLevels : Nat := 200

/-- The reader of nodes that are at most `n` levels deep. -/
def readLevels (count : Nat) (handles : Handles) : Nat → Reader
  | 0 => fun _ _ ↦ none
  | n + 1 => readNode count handles (readLevels count handles n)

/-! ## Documents -/

/-- Reads the directives before a document: at most one version, which must be 1.1 or 1.2, and
different tag handles. -/
def readDirectives (versioned : Bool) (handles : Handles) : Tokens → Option (Handles × Tokens)
  | .version major minor :: ts =>
    if versioned ∨ major ≠ 1 ∨ (minor ≠ 1 ∧ minor ≠ 2) then none
    else readDirectives true handles ts
  | .tagHandle h e :: ts =>
    if (handles.lookup h).isSome then none else readDirectives versioned ((h, e) :: handles) ts
  | ts => some (handles, ts)

/-- The expansions without directives. -/
def defaultHandles : Handles :=
  [("!", .ofWord "!".toList), ("!!", .ofWord "tag:yaml.org,2002:".toList)]

/-- Reads the first document, if there is one. Behind the start mark the node may be missing. -/
def readDocument : Tokens → Option (Option Node × Tokens)
  | [.streamEnd] => some (none, [.streamEnd])
  | ts => do
    let (handles, rest) ← readDirectives false [] ts
    let read := readLevels ts.length (handles ++ defaultHandles) maxLevels .block
    match rest with
    | .documentStart :: ts =>
      let isOver := match ts with
        | .version _ _ :: _ => true
        | .tagHandle _ _ :: _ => true
        | .documentStart :: _ => true
        | .documentEnd :: _ => true
        | .streamEnd :: _ => true
        | _ => false
      if isOver then some (some missing, ts)
      else do
        let (n, ts) ← read ts
        some (some n, ts)
    | _ =>
      if rest.length < ts.length then none
      else do
        let (n, ts) ← read ts
        some (some n, ts)

/-- The node of a text that holds at most one document. -/
def ofTokens? (ts : Tokens) : Option (Option Node) := do
  let (n, rest) ← readDocument ts
  let rest := rest.dropWhile (· = .documentEnd)
  if rest = [.streamEnd] then some n else none

end Node

end Interpolation.Yaml
