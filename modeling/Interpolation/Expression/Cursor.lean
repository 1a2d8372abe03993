import Interpolation.Text.Basic
import Interpolation.Expression.Error
import Interpolation.Expression.Token

/-!
# Scanning an expression

A cursor stands in the text of one expression and hands out one token at a time. The expression is
part of a larger text, and errors point into that: `offset` is the byte of the larger text at
which the expression begins.

Each scanning step gives its answer together with the cursor that it leaves behind, also when it
fails, since a failed scan stops where it found the fault.
-/

namespace Interpolation

open Text

/-- A place in the text of an expression. -/
structure Cursor where
  /-- The byte of the surrounding text at which the expression begins. -/
  offset : Nat
  /-- The bytes of the expression before the cursor. -/
  position : Nat
  /-- The text from the cursor on. -/
  rest : List Char
  /-- Bytes of the first unread character that are passed already. Scanning steps stop between
  characters and leave this at 0; only `advance` can end up inside one. -/
  passed : Nat := 0
  deriving DecidableEq, Repr

namespace Cursor

/-- The cursor before a whole text. -/
def start (text : List Char) (offset : Nat) : Cursor := ⟨offset, 0, text, 0⟩

/-- The byte of the surrounding text under the cursor. -/
def absolute (c : Cursor) : Nat := c.offset + c.position

def atEnd (c : Cursor) : Bool := c.rest.isEmpty

/-- The cursor after the next characters, `taken` and then `rest`. -/
def past (c : Cursor) (taken rest : List Char) : Cursor :=
  { c with position := c.position + byteLength taken, rest := rest }

/-- The error that blames `token` at the cursor. -/
def unexpected (c : Cursor) (token : List Char) : SyntaxError :=
  .unexpectedToken (String.ofList token) c.absolute

/-- The error that blames the character under the cursor. -/
def unexpectedHere (c : Cursor) : SyntaxError := c.unexpected (c.rest.take 1)

end Cursor

/-- A token and where it begins. -/
structure Lexeme where
  start : Cursor
  token : Token
  deriving DecidableEq, Repr

namespace Lexeme

/-- The byte of the surrounding text at which the token begins. -/
def position (l : Lexeme) : Nat := l.start.absolute

end Lexeme

/-- The answer of a scanning step: a token, none, or an error. -/
abbrev Scanned := Except SyntaxError (Option Lexeme) × Cursor

namespace Cursor

/-- Passes the blanks at the cursor. -/
def skipBlanks (c : Cursor) : Cursor :=
  c.past (c.rest.takeWhile isBlank) (c.rest.dropWhile isBlank)

/-- The operator at the cursor. -/
def operator? (c : Cursor) : Option Operator := (Operator.ofText? c.rest).map Prod.fst

/-- Moves forward by the length of an operator, whatever the text there is. -/
def advance (c : Cursor) (op : Operator) : Cursor :=
  let bytes := byteLength op.symbol.toList
  let (rest, passed) := passBytes (c.passed + bytes) c.rest
  { c with position := c.position + bytes, rest := rest, passed := passed }

/-- The name at the cursor, as long as it can be. It must not end in a hyphen: then the scan stops
before that hyphen and blames it. -/
def name (c : Cursor) : Scanned :=
  let run := c.rest.takeWhile isNameChar
  let after := c.rest.dropWhile isNameChar
  match run.getLast? with
  | none => (.ok none, c)
  | some '-' =>
    let stop := c.past run.dropLast ('-' :: after)
    (.error (stop.unexpected ['-']), stop)
  | some _ => (.ok (some ⟨c, .name (String.ofList run)⟩), c.past run after)

/-- The quoted text at the cursor. Without a closing quote the whole rest is blamed. -/
def quoted (c : Cursor) : Scanned :=
  match c.rest with
  | '\'' :: inside =>
    match closeQuote? inside with
    | some (value, after) =>
      (.ok (some ⟨c, .quoted (String.ofList value)⟩), c.past (quote value) after)
    | none => (.error (c.unexpected c.rest), c.past c.rest [])
  | _ => (.ok none, c)

/-- The operator at the cursor as a token. -/
def operator (c : Cursor) : Scanned :=
  match Operator.ofText? c.rest with
  | some (op, after) => (.ok (some ⟨c, .operator op⟩), c.past op.symbol.toList after)
  | none => (.error c.unexpectedHere, c)

/-- The next token, or none when only blanks are left. -/
def next (c : Cursor) : Scanned :=
  let c := c.skipBlanks
  if c.atEnd then (.ok none, c) else
    match c.quoted with
    | (.ok none, _) =>
      match c.name with
      | (.ok none, _) => c.operator
      | answer => answer
    | answer => answer

end Cursor

end Interpolation
