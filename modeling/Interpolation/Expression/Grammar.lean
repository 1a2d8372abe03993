import Interpolation.Expression.Lexeme
import Interpolation.Expression.Tree

/-!
# Reading expressions

The text is first scanned to its end; the tree is then built from the lexemes by

```text
or      := and ('||' or)?
and     := access ('&&' and)?
access  := operand ('.' access)?
operand := '(' or ')' | quoted | name
```

so that every connective leans to the right. The content of parentheses and each right-hand side
lie one level deeper than what they stand in, and there are at most `maxLevels` levels below the
first. This limit is the recursion: the reader of a level gets the reader of the next deeper level
as an argument, and on the last level there is none, so whatever would open another level is
blamed. The depth of a tree is thereby bounded whatever the length of the text, and no level is
ever left open.

What follows a complete operand is judged without reading it as a token: a fault in the scan only
shows where an operand is expected.
-/

namespace Interpolation

namespace Tree

/-- How many levels of parentheses and right-hand sides may lie below the first. -/
def maxLevels : Nat := 256

/-- An attempt to read an expression: a tree, or none where the text is over, and the lexemes that
are left. -/
abbrev Reading := Except SyntaxError (Option Tree × List Lexeme)

/-- A reader of expressions whose connectives bind at least as tightly as the given one. -/
abbrev Reader := Connective → List Lexeme → Reading

/-- What stands before the first connective of a level. A connective in its place is blamed as a
whole if it could belong to this level, else only by its first character. -/
def readOperand (ending : Ending) (deeper : Option Reader) (least : Connective) :
    List Lexeme → Reading
  | [] =>
    match ending with
    | .finished => .ok (none, [])
    | .failed _ e => .error e
  | l :: rest =>
    match l.token with
    | .name s => .ok (some (.name s), rest)
    | .quoted s => .ok (some (.quoted s), rest)
    | .operator (.connective c) =>
      if least.strength ≤ c.strength then
        .error (l.start.unexpected (Operator.connective c).symbol.toList)
      else .error l.start.unexpectedHere
    | .operator .rightParen => .error l.start.unexpectedHere
    | .operator .leftParen =>
      match deeper with
      | none => .error (l.start.unexpected Operator.leftParen.symbol.toList)
      | some read =>
        match read .or rest with
        | .error e => .error e
        | .ok (some t, ⟨_, .operator .rightParen⟩ :: rest) => .ok (some (.group t), rest)
        | .ok _ => .error (l.start.unexpected l.start.rest)

/-- Joins a tree with the right-hand side that follows it, if the next lexeme is the connective
`c`. -/
def readJoin (deeper : Option Reader) (c : Connective) (left : Tree) :
    List Lexeme → Except SyntaxError (Tree × List Lexeme)
  | [] => .ok (left, [])
  | l :: rest =>
    if l.token = .operator (.connective c) then
      let missing := l.start.unexpected (Operator.connective c).symbol.toList
      match deeper with
      | none => .error missing
      | some read =>
        match read c rest with
        | .error e => .error e
        | .ok (none, _) => .error missing
        | .ok (some right, rest) => .ok (.join c left right, rest)
    else .ok (left, l :: rest)

/-- Joins a tree with what follows it on the same level, tightest connective first. A parenthesis
cannot follow an operand. -/
def readJoins (deeper : Option Reader) (least : Connective) (left : Tree) (ls : List Lexeme) :
    Except SyntaxError (Tree × List Lexeme) := do
  let (t, ls) ← readJoin deeper .dot left ls
  let (t, ls) ←
    if least.strength ≤ Connective.and.strength then readJoin deeper .and t ls else .ok (t, ls)
  let (t, ls) ←
    if least.strength ≤ Connective.or.strength then readJoin deeper .or t ls else .ok (t, ls)
  match ls with
  | ⟨start, .operator .leftParen⟩ :: _ =>
    .error (start.unexpected Operator.leftParen.symbol.toList)
  | _ => .ok (t, ls)

/-- One level, given the reader of the next deeper one. -/
def readLevel (ending : Ending) (deeper : Option Reader) : Reader := fun least ls ↦
  match readOperand ending deeper least ls with
  | .error e => .error e
  | .ok (none, rest) => .ok (none, rest)
  | .ok (some t, rest) =>
    match readJoins deeper least t rest with
    | .error e => .error e
    | .ok (t, rest) => .ok (some t, rest)

/-- The reader with `n` levels below it. -/
def readLevels (ending : Ending) : Nat → Reader
  | 0 => readLevel ending none
  | n + 1 => readLevel ending (some (readLevels ending n))

/-- Reads a whole text, at byte `offset` of its surroundings, as one expression. -/
def read (text : List Char) (offset : Nat) : Except SyntaxError Tree :=
  let (ls, last) := (Cursor.start text offset).lexemes
  match readLevels last.ending maxLevels .or ls with
  | .error e => .error e
  | .ok (none, _) => .error (.expressionExpected offset)
  | .ok (some _, l :: _) => .error l.start.unexpectedHere
  | .ok (some t, []) =>
    match last.ending with
    | .finished => .ok t
    | .failed start _ => .error start.unexpectedHere

end Tree

end Interpolation
