import Interpolation.Yaml.Block
import Interpolation.Yaml.Flow
import Interpolation.Yaml.Name

/-!
# Tokens of a YAML text

Block collections have no brackets: where they start and end follows from columns. A mapping is
noticed only at the colon behind its first key, so each place where a key may stand is remembered
until then, and the tokens that open the mapping are put in front of the key afterwards. Such a key
must stay within one line and 1024 bytes. Outside flow collections a key that starts at the
column of the current mapping must turn out to be one.
-/

namespace Interpolation.Yaml

/-- A place where a key may have started. -/
structure PossibleKey where
  /-- Whether no other reading is possible. -/
  required : Bool
  /-- The number of tokens before the key. -/
  number : Nat
  mark : Mark

/-- A scan in progress. -/
structure Lexing where
  here : Place
  /-- The tokens so far, reversed, and their number. -/
  tokens : List (Token String)
  count : Nat
  /-- Whether a key may start here. -/
  keyAllowed : Bool
  /-- The column of the innermost block collection, -1 if there is none, and of those around it. -/
  indent : Int
  outer : List Int
  /-- The possible key of the innermost flow collection, or of the block context, and of the
  contexts around it. -/
  key : Option PossibleKey
  outerKeys : List (Option PossibleKey)

namespace Lexing

/-- The scan before a text. -/
def start (text : List Char) : Lexing := ⟨.start text, [], 0, true, -1, [], none, []⟩

/-- Whether the scan is within a flow collection. -/
def inFlow (s : Lexing) : Bool := ¬ s.outerKeys.isEmpty

def column (s : Lexing) : Int := s.here.mark.column

/-- Adds a token. -/
def emit (t : Token String) (s : Lexing) : Lexing :=
  { s with tokens := t :: s.tokens, count := s.count + 1 }

/-- Adds a token behind the first `n`. -/
def insert (n : Nat) (t : Token String) (s : Lexing) : Lexing :=
  { s with tokens := s.tokens.insertIdx (s.count - n) t, count := s.count + 1 }

/-- Goes on at another place. -/
def moveTo (p : Place) (s : Lexing) : Lexing := { s with here := p }

def drop (n : Nat) (s : Lexing) : Lexing := s.moveTo (s.here.drop n)

def allowKey (b : Bool) (s : Lexing) : Lexing := { s with keyAllowed := b }

/-! ## Possible keys -/

/-- Gives up the possible key of this context; a required one cannot be given up. -/
def dropKey? (s : Lexing) : Option Lexing :=
  match s.key with
  | some k => if k.required then none else some { s with key := none }
  | none => some s

/-- Remembers that a key may start here. -/
def saveKey? (s : Lexing) : Option Lexing :=
  if s.keyAllowed then do
    let required := ¬ s.inFlow ∧ s.indent = s.column
    let s ← s.dropKey?
    some { s with key := some ⟨required, s.count, s.here.mark⟩ }
  else some s

/-- A possible key, unless it can be one no longer. -/
def freshKey? (here : Mark) : Option PossibleKey → Option (Option PossibleKey)
  | none => some none
  | some k =>
    if k.mark.line < here.line ∨ k.mark.index + 1024 < here.index then
      if k.required then none else some none
    else some (some k)

/-- Gives up all keys that can be one no longer. -/
def dropStaleKeys? (s : Lexing) : Option Lexing := do
  let key ← freshKey? s.here.mark s.key
  let outerKeys ← s.outerKeys.mapM (freshKey? s.here.mark)
  some { s with key := key, outerKeys := outerKeys }

/-! ## Indentation -/

/-- Opens a block collection at a column, if that is deeper than the current one; its token goes
behind the first `n` tokens. -/
def openBlock (column : Int) (n : Nat) (t : Token String) (s : Lexing) : Lexing :=
  if ¬ s.inFlow ∧ s.indent < column then
    { s.insert n t with indent := column, outer := s.indent :: s.outer }
  else s

/-- Closes the block collections deeper than a column, the innermost of which is at `indent`. -/
def closeFrom (column : Int) (s : Lexing) (indent : Int) : List Int → Lexing
  | [] => { s with indent := indent, outer := [] }
  | o :: os =>
    if column < indent then closeFrom column (s.emit .blockEnd) o os
    else { s with indent := indent, outer := o :: os }

/-- Closes the block collections deeper than a column. -/
def closeBlocks (column : Int) (s : Lexing) : Lexing :=
  if s.inFlow then s else closeFrom column s s.indent s.outer

/-! ## Tokens -/

/-- Passes blanks, comments and line breaks. Where a key may start, a tab is no indentation. -/
def skipSpace (flow : Bool) (comment keyAllowed : Bool) (m : Mark) :
    List Char → Place × Bool
  | [] => (⟨m, []⟩, keyAllowed)
  | c :: cs =>
    if isBreak c then skipSpace flow false (keyAllowed || ¬ flow) (m.past c) cs
    else if comment then skipSpace flow true keyAllowed (m.past c) cs
    else if c = '#' then skipSpace flow true keyAllowed (m.past c) cs
    else if c = ' ' ∨ (c = '\t' ∧ (flow ∨ ¬ keyAllowed)) ∨ (c = '\uFEFF' ∧ m.column = 0) then
      skipSpace flow false keyAllowed (m.past c) cs
    else (⟨m, c :: cs⟩, keyAllowed)

/-- A token of the document level, which closes all block collections. -/
def documentToken? (s : Lexing) : Option Lexing := do
  let s ← (s.closeBlocks (-1)).dropKey?
  some (s.allowKey false)

/-- The end of the text. -/
def finish? (s : Lexing) : Option (List (Token String)) := do
  let s ← s.documentToken?
  some ((s.emit .streamEnd).tokens.reverse)

/-- The start of a flow collection, which may be a key itself. -/
def openFlow? (t : Token String) (s : Lexing) : Option Lexing := do
  let s ← s.saveKey?
  let s := { s with key := none, outerKeys := s.key :: s.outerKeys, keyAllowed := true }
  some ((s.drop 1).emit t)

/-- The end of a flow collection. -/
def closeFlow? (t : Token String) (s : Lexing) : Option Lexing := do
  let s ← s.dropKey?
  let s := match s.outerKeys with
    | k :: ks => { s with key := k, outerKeys := ks }
    | [] => s
  some (((s.allowKey false).drop 1).emit t)

def flowEntry? (s : Lexing) : Option Lexing := do
  let s ← s.dropKey?
  some (((s.allowKey true).drop 1).emit .flowEntry)

def blockEntry? (s : Lexing) : Option Lexing :=
  if ¬ s.inFlow ∧ ¬ s.keyAllowed then none
  else do
    let s ← (s.openBlock s.column s.count .blockSequenceStart).dropKey?
    some (((s.allowKey true).drop 1).emit .blockEntry)

/-- The question mark of an explicit key. -/
def explicitKey? (s : Lexing) : Option Lexing :=
  if ¬ s.inFlow ∧ ¬ s.keyAllowed then none
  else do
    let s ← (s.openBlock s.column s.count .blockMappingStart).dropKey?
    some (((s.allowKey (¬ s.inFlow)).drop 1).emit .key)

/-- The colon before a value. If a key may have started before, it did. -/
def value? (s : Lexing) : Option Lexing :=
  match s.key with
  | some k =>
    let s := (s.insert k.number .key).openBlock k.mark.column k.number .blockMappingStart
    some ((({ s with key := none }.allowKey false).drop 1).emit .value)
  | none =>
    if ¬ s.inFlow ∧ ¬ s.keyAllowed then none
    else
      let s := s.openBlock s.column s.count .blockMappingStart
      some (((s.allowKey (¬ s.inFlow)).drop 1).emit .value)

/-- A scalar, anchor, alias or tag, which may be a key or begin one. -/
def content? (read : Lexing → Option (Token String × Place)) (s : Lexing) : Option Lexing := do
  let s ← s.saveKey?
  let (t, p) ← read s
  some (((s.allowKey false).moveTo p).emit t)

def anchor? (isAlias : Bool) : Lexing → Option Lexing :=
  content? fun s ↦ (anchorName? (s.here.drop 1)).map fun (name, p) ↦
    (if isAlias then .aliasOf name else .anchor name, p)

def tag? : Lexing → Option Lexing := content? fun s ↦ tagToken? s.inFlow s.here

def quoted? (double : Bool) : Lexing → Option Lexing :=
  content? fun s ↦
    let p := s.here.drop 1
    let read := if double then doubleQuoted else singleQuoted
    (read .empty p.mark p.rest).map fun (text, p) ↦ (.scalar false text, p)

def block? (folded : Bool) (s : Lexing) : Option Lexing := do
  let s ← s.dropKey?
  let (text, p) ← blockScalar folded s.indent (s.here.drop 1)
  some (((s.allowKey true).moveTo p).emit (.scalar false text))

def plain? (s : Lexing) : Option Lexing := do
  let s ← s.saveKey?
  let r ← plainScalar s.inFlow (s.indent + 1) false .empty s.here.mark s.here.rest
  some (((s.allowKey r.broken).moveTo r.next).emit (.scalar true r.text))

def directive? (s : Lexing) : Option Lexing := do
  let s ← s.documentToken?
  let (t, p) ← directiveToken? (s.here.drop 1)
  some ((s.moveTo p).emit t)

def marker? (t : Token String) (s : Lexing) : Option Lexing := do
  let s ← s.documentToken?
  some ((s.drop 3).emit t)

/-- The next token, given that the text goes on with `c` and then `cs`. -/
def token? (c : Char) (cs : List Char) (s : Lexing) : Option Lexing :=
  let spaced := endsWord cs
  let indicates := s.inFlow || spaced
  if s.column = 0 ∧ c = '%' then s.directive?
  else if s.column = 0 ∧ isMarker (c :: cs) then
    s.marker? (if c = '-' then .documentStart else .documentEnd)
  else match c with
    | '[' => s.openFlow? .flowSequenceStart
    | '{' => s.openFlow? .flowMappingStart
    | ']' => s.closeFlow? .flowSequenceEnd
    | '}' => s.closeFlow? .flowMappingEnd
    | ',' => s.flowEntry?
    | '-' => if spaced then s.blockEntry? else s.plain?
    | '?' => if indicates then s.explicitKey? else s.plain?
    | ':' => if indicates then s.value? else s.plain?
    | '*' => s.anchor? true
    | '&' => s.anchor? false
    | '!' => s.tag?
    | '|' => if s.inFlow then none else s.block? false
    | '>' => if s.inFlow then none else s.block? true
    | '\'' => s.quoted? false
    | '"' => s.quoted? true
    | _ => if c ∈ ['\t', '#', '%', '@', '`'] then none else s.plain?

/-- Moves to the next token, closing the block collections that end before it. -/
def advance? (s : Lexing) : Option Lexing := do
  let (here, keyAllowed) := skipSpace s.inFlow false s.keyAllowed s.here.mark s.here.rest
  let s ← { s with here := here, keyAllowed := keyAllowed }.dropStaleKeys?
  some (s.closeBlocks s.column)

/-- The tokens from here to the end. As every token takes some text, there are at most as many as
there are characters, which is the first argument. -/
def run? : Nat → Lexing → Option (List (Token String))
  | n, s =>
    match s.advance? with
    | none => none
    | some next =>
      match next.here.rest, n with
      | [], _ => next.finish?
      | _ :: _, 0 => none
      | c :: cs, n + 1 =>
        match next.token? c cs with
        | none => none
        | some after => run? n after

end Lexing

/-- The tokens of a text; none if it is not well-formed. -/
def Token.ofText? (text : List Char) : Option (List (Token String)) :=
  if text.all isAllowed then Lexing.run? text.length (.start (unifyBreaks text)) else none

end Interpolation.Yaml
