import Interpolation.Decimal.Decimal
import Interpolation.Yaml.Character
import Interpolation.Yaml.Token

/-!
# Anchors, tags and directives

The tokens that name things. A tag is a handle and a suffix; the handle stands for an expansion
that a directive may set.
-/

namespace Interpolation.Yaml

/-! ## Anchors and aliases -/

/-- The name of an anchor or alias, behind its indicator. -/
def anchorName? (here : Place) : Option (String × Place) :=
  let (name, next) := here.span isWord
  let ends : Bool := endsWord next.rest ||
    next.rest.head?.any fun c ↦ c ∈ ['?', ':', ',', ']', '}', '%', '@', '`']
  if name = [] ∨ ¬ ends then none else some (String.ofList name, next)

/-! ## Tags -/

/-- The characters of a tag. -/
def isTagChar (verbatim : Bool) (c : Char) : Bool :=
  isWord c ||
    c ∈ [';', '/', '?', ':', '@', '&', '=', '+', '$', '.', '!', '~', '*', '\'', '(', ')', '%'] ||
    (verbatim && c ∈ [',', '[', ']'])

/-- A byte written as a percent sign and two hexadecimal digits. -/
def escapedByte? : List Char → Option (UInt8 × List Char)
  | '%' :: a :: b :: cs => (Decimal.natOfDigits? 16 [a, b]).map fun n ↦ (n.toUInt8, cs)
  | _ => none

/-- How many bytes follow the first one of a character. -/
def trailingBytes? (b : UInt8) : Option Nat :=
  if b < 0x80 then some 0
  else if 0xC0 ≤ b ∧ b < 0xE0 then some 1
  else if 0xE0 ≤ b ∧ b < 0xF0 then some 2
  else if 0xF0 ≤ b ∧ b < 0xF8 then some 3
  else none

/-- How many bytes follow `b` where `n` bytes that are not first ones must stand. -/
def nextTrailing? (n : Nat) (b : UInt8) : Option Nat :=
  if 0x80 ≤ b ∧ b < 0xC0 then some (n - 1) else none

/-- The bytes of a tag with its escapes resolved; `n` more of them belong to a character that has
begun. Only the form of the bytes is checked: they need not make up characters. -/
def unescapeTag? (n : Nat) (cs : List Char) : Option (List UInt8) :=
  match cs with
  | [] => if n = 0 then some [] else none
  | c :: cs =>
    if c = '%' then
      match escapedByte? (c :: cs) with
      | none => none
      | some (b, rest) =>
        match if n = 0 then trailingBytes? b else nextTrailing? n b with
        | none => none
        | some n =>
          if rest.length ≤ cs.length then (unescapeTag? n rest).map (b :: ·) else none
    else if n = 0 then (unescapeTag? 0 cs).map (c.toNat.toUInt8 :: ·)
    else none
termination_by cs.length

/-- The text of a tag from here on, up to its first zero byte. -/
def tagText? (verbatim : Bool) (here : Place) : Option (TagText × Place) :=
  let (cs, next) := here.span (isTagChar verbatim)
  (unescapeTag? 0 cs).map fun bytes ↦ (bytes.takeWhile (· ≠ 0), next)

/-- Whether the text of a tag goes on here. -/
def beginsTagText (verbatim : Bool) (here : Place) : Bool :=
  here.rest.head?.any (isTagChar verbatim)

/-- A tag handle: an exclamation mark, or a word between two. -/
def tagHandle? (here : Place) : Option (List Char × Place) :=
  match here.rest with
  | '!' :: _ =>
    let (word, next) := (here.drop 1).span isWord
    match next.rest with
    | '!' :: _ => some ('!' :: (word ++ ['!']), next.drop 1)
    | _ => some ('!' :: word, next)
  | _ => none

/-- The handle and the suffix of a tag. An exclamation mark alone is a tag without a handle. -/
def tagParts? (here : Place) : Option (List Char × TagText × Place) :=
  match here.rest with
  | '!' :: '<' :: _ => do
    let here := here.drop 2
    let (suffix, next) ← tagText? true here
    match next.rest with
    | '>' :: _ => if beginsTagText true here then some ([], suffix, next.drop 1) else none
    | _ => none
  | _ => do
    let (handle, here) ← tagHandle? here
    let (suffix, next) ← tagText? false here
    if 2 ≤ handle.length ∧ handle.getLast? = some '!' then
      if beginsTagText false here then some (handle, suffix, next) else none
    else
      let suffix := TagText.ofWord (handle.drop 1) ++ suffix
      if suffix = [] then some ([], TagText.ofWord ['!'], next) else some (['!'], suffix, next)

/-- A tag. A comma may end it within a flow collection. -/
def tagToken? (flow : Bool) (here : Place) : Option (Token String × Place) := do
  let (handle, suffix, next) ← tagParts? here
  let ends : Bool := endsWord next.rest || (flow && next.rest.head? = some ',')
  if ends then some (.tag (String.ofList handle) suffix, next) else none

/-! ## Directives -/

/-- A part of a version number. -/
def versionPart? (here : Place) : Option (Nat × Place) := do
  let (digits, next) := here.span Char.isDigit
  let n ← Decimal.natOfDigits? 10 digits
  if digits.length ≤ 9 then some (n, next) else none

/-- A directive, behind its percent sign; there are two kinds. -/
def directiveToken? (here : Place) : Option (Token String × Place) := do
  let (name, next) := here.span isWord
  if ¬ endsWord next.rest then none
  else
    let next := next.skip isBlank
    let (token, next) ←
      if name = "YAML".toList then do
        let (major, next) ← versionPart? next
        match next.rest with
        | '.' :: _ => do
          let (minor, next) ← versionPart? (next.drop 1)
          some (Token.version major minor, next)
        | _ => none
      else if name = "TAG".toList then do
        let (handle, next) ← tagHandle? next
        if handle ≠ ['!'] ∧ (handle.length < 2 ∨ handle.getLast? ≠ some '!') then none
        else if ¬ next.rest.head?.any isBlank then none
        else
          let here := next.skip isBlank
          let (expansion, next) ← tagText? true here
          if beginsTagText true here ∧ endsWord next.rest then
            some (Token.tagHandle (String.ofList handle) expansion, next)
          else none
      else none
    let next ← next.endLine?
    some (token, next)

end Interpolation.Yaml
