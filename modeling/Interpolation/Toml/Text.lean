import Interpolation.Decimal.Decimal

/-!
# Strings and keys of TOML

There are four kinds of strings: with escapes or without, on one line or on several. A key is a
bare word or a string on one line, and keys are joined by dots. Every reader takes the text from
some place on and gives what it read and the rest.
-/

namespace Interpolation.Toml

/-- A reader of a part of a text. -/
abbrev Reader (α : Type) := List Char → Option (α × List Char)

def isBlank (c : Char) : Bool := c = ' ' || c = '\t'

/-- Whether a character may stand in a string or a comment as it is. -/
def isPrintable (c : Char) : Bool := c = '\t' || (0x20 ≤ c.toNat && c.toNat ≠ 0x7F)

/-- The text behind a line end, if one stands here: a line feed, perhaps behind a carriage
return. -/
def lineEnd? : List Char → Option (List Char)
  | '\n' :: cs => some cs
  | '\r' :: '\n' :: cs => some cs
  | _ => none

/-! ## Escapes -/

/-- The character that a letter stands for after a backslash. -/
def shortEscape? : Char → Option Char
  | 'b' => some '\x08'
  | 't' => some '\t'
  | 'n' => some '\n'
  | 'f' => some '\x0c'
  | 'r' => some '\r'
  | 'e' => some '\x1b'
  | '"' => some '"'
  | '\\' => some '\\'
  | _ => none

/-- How many hexadecimal digits follow a letter after a backslash. -/
def escapeDigits? : Char → Option Nat
  | 'x' => some 2
  | 'u' => some 4
  | 'U' => some 8
  | _ => none

/-- Reads an escape behind its backslash. -/
def escape : Reader Char
  | [] => none
  | c :: cs =>
    match escapeDigits? c with
    | none => (shortEscape? c).map fun e ↦ (e, cs)
    | some n =>
      match Decimal.natOfDigits? 16 (cs.take n) with
      | none => none
      | some v => if n ≤ cs.length ∧ v.isValidChar then some (Char.ofNat v, cs.drop n) else none

/-! ## Strings -/

/-- Reads a string with escapes on one line, behind its quote. -/
def basic : Reader (List Char)
  | [] => none
  | c :: cs =>
    if c = '"' then some ([], cs)
    else if c = '\\' then
      match escape cs with
      | none => none
      | some (e, rest) =>
        if rest.length < cs.length then (basic rest).map fun (s, r) ↦ (e :: s, r) else none
    else if isPrintable c then (basic cs).map fun (s, r) ↦ (c :: s, r)
    else none
termination_by cs => cs.length

/-- Reads a string without escapes on one line, behind its quote. -/
def literal : Reader (List Char)
  | [] => none
  | c :: cs =>
    if c = '\'' then some ([], cs)
    else if isPrintable c then (literal cs).map fun (s, r) ↦ (c :: s, r)
    else none

/-- The quotes that belong to a string on several lines, where `n` of them stand: three close it,
and up to two before those are text. `none` if more stand there, `some none` if too few. -/
def closing? (n : Nat) : Option (Option Nat) :=
  if n < 3 then some none else if n ≤ 5 then some (some (n - 3)) else none

/-- The text behind all blanks and line ends. -/
def pastLines : List Char → List Char
  | [] => []
  | '\r' :: '\n' :: cs => pastLines cs
  | c :: cs => if isBlank c || c = '\n' then pastLines cs else c :: cs

/-- Reads a string on several lines, behind its quotes. Line ends stay as they are. With escapes, a
backslash at the end of a line takes away all blanks and line ends that follow it. -/
def multiline (quote : Char) (escapes : Bool) : List Char → Option (List Char × List Char)
  | [] => none
  | '\r' :: '\n' :: rest =>
    (multiline quote escapes rest).map fun (s, r) ↦ ('\r' :: '\n' :: s, r)
  | c :: rest =>
    if c = quote then
      let more := rest.takeWhile (· = quote)
      match closing? (more.length + 1) with
      | none => none
      | some (some n) => some (List.replicate n quote, rest.drop more.length)
      | some none => (multiline quote escapes rest).map fun (s, r) ↦ (c :: s, r)
    else if c = '\\' ∧ escapes then
      if (lineEnd? (rest.dropWhile isBlank)).isSome then
        if (pastLines rest).length ≤ rest.length then multiline quote escapes (pastLines rest)
        else none
      else match escape rest with
        | none => none
        | some (e, next) =>
          if next.length ≤ rest.length then
            (multiline quote escapes next).map fun (s, r) ↦ (e :: s, r)
          else none
    else if isPrintable c ∨ c = '\n' then
      (multiline quote escapes rest).map fun (s, r) ↦ (c :: s, r)
    else none
termination_by cs => cs.length

/-- Drops the line end right behind the opening quotes. -/
def dropLineEnd (cs : List Char) : List Char := (lineEnd? cs).getD cs

/-- Reads a string of any kind. -/
def string : Reader String := fun cs ↦
  let read := match cs with
    | '"' :: '"' :: '"' :: cs => multiline '"' true (dropLineEnd cs)
    | '\'' :: '\'' :: '\'' :: cs => multiline '\'' false (dropLineEnd cs)
    | '"' :: cs => basic cs
    | '\'' :: cs => literal cs
    | _ => none
  read.map fun (s, r) ↦ (String.ofList s, r)

/-! ## Keys -/

/-- The characters of a bare key. -/
def isBare (c : Char) : Bool := c.isAlphanum || c = '_' || c = '-'

/-- Reads a key without dots. -/
def simpleKey : Reader String
  | '"' :: cs => (basic cs).map fun (s, r) ↦ (String.ofList s, r)
  | '\'' :: cs => (literal cs).map fun (s, r) ↦ (String.ofList s, r)
  | cs =>
    match cs.takeWhile isBare with
    | [] => none
    | s => some (String.ofList s, cs.dropWhile isBare)

/-- Reads keys joined by dots; blanks may stand around each. -/
def dottedKey (cs : List Char) : Option (List String × List Char) :=
  match simpleKey (cs.dropWhile isBlank) with
  | none => none
  | some (k, rest) =>
    match rest.dropWhile isBlank with
    | '.' :: next =>
      if next.length < cs.length then (dottedKey next).map fun (ks, r) ↦ (k :: ks, r) else none
    | rest => some ([k], rest)
termination_by cs.length

end Interpolation.Toml
