import Interpolation.Decimal.Decimal
import Interpolation.Yaml.Folding

/-!
# Plain and quoted scalars
-/

namespace Interpolation.Yaml

/-! ## Quoted scalars

The readers start behind the opening quote and stop behind the closing one. A document mark at the
start of a line is not allowed inside. -/

/-- The text of a scalar in single quotes, where a quote is written twice. -/
def singleQuoted (f : Folding) (m : Mark) : List Char → Option (String × Place)
  | [] => none
  | '\'' :: '\'' :: cs => singleQuoted (f.char '\'') ((m.past '\'').past '\'') cs
  | c :: cs =>
    if c = '\'' then some (f.settle.result, ⟨m.past c, cs⟩)
    else if isBlank c then singleQuoted (f.blank c) (m.past c) cs
    else if isBreak c then singleQuoted (f.lineBreak c) (m.past c) cs
    else if m.column = 0 ∧ isMarker (c :: cs) then none
    else singleQuoted (f.char c) (m.past c) cs

/-- The character that a letter stands for after a backslash. -/
def shortEscape? : Char → Option Char
  | '0' => some '\x00'
  | 'a' => some '\x07'
  | 'b' => some '\x08'
  | 't' => some '\t'
  | '\t' => some '\t'
  | 'n' => some '\n'
  | 'v' => some '\x0b'
  | 'f' => some '\x0c'
  | 'r' => some '\r'
  | 'e' => some '\x1b'
  | ' ' => some ' '
  | '"' => some '"'
  | '/' => some '/'
  | '\\' => some '\\'
  | 'N' => some '\u0085'
  | '_' => some '\u00a0'
  | 'L' => some '\u2028'
  | 'P' => some '\u2029'
  | _ => none

/-- The character with a hexadecimal number. -/
def codePoint? (digits : List Char) : Option Char := do
  let n ← Decimal.natOfDigits? 16 digits
  if n.isValidChar then some (Char.ofNat n) else none

/-- How many digits follow a letter after a backslash. -/
def escapeDigits? : Char → Option Nat
  | 'x' => some 2
  | 'u' => some 4
  | 'U' => some 8
  | _ => none

/-- The mark behind `n` characters of ASCII on the same line. -/
def Mark.within (m : Mark) (n : Nat) : Mark := ⟨m.line, m.column + n, m.index + n⟩

/-- The text of a scalar in double quotes. -/
def doubleQuoted (f : Folding) (m : Mark) : List Char → Option (String × Place)
  | [] => none
  | '\\' :: c :: cs =>
    if isBreak c then doubleQuoted f.join ((m.past '\\').past c) cs
    else match escapeDigits? c with
      | none =>
        match shortEscape? c with
        | none => none
        | some e => doubleQuoted (f.char e) (m.within 2) cs
      | some n =>
        if cs.length < n then none
        else match codePoint? (cs.take n) with
          | none => none
          | some e => doubleQuoted (f.char e) (m.within (2 + n)) (cs.drop n)
  | c :: cs =>
    if c = '"' then some (f.settle.result, ⟨m.past c, cs⟩)
    else if isBlank c then doubleQuoted (f.blank c) (m.past c) cs
    else if isBreak c then doubleQuoted (f.lineBreak c) (m.past c) cs
    else if m.column = 0 ∧ isMarker (c :: cs) then none
    else doubleQuoted (f.char c) (m.past c) cs
termination_by cs => cs.length
decreasing_by all_goals simp only [List.length_cons, List.length_drop]; omega

/-! ## Plain scalars -/

/-- A plain scalar that has been read. -/
structure PlainScalar where
  text : String
  /-- Whether line breaks were passed behind it. -/
  broken : Bool
  next : Place

/-- Whether a plain scalar ends before a character that is no blank: at a comment or a mark of
structure, and outside flow collections also where a line has less than `indent` columns before
it. `fresh` says that a blank or a break has just been passed. -/
def endsPlain (flow : Bool) (indent : Int) (fresh : Bool) (m : Mark) (c : Char) (cs : List Char) :
    Bool :=
  (fresh && (c = '#' || (!flow && (m.column : Int) < indent))) ||
    (m.column = 0 && isMarker (c :: cs)) || (c = ':' && endsWord cs) ||
    (flow && c ∈ [',', '[', ']', '{', '}'])

/-- Whether a colon stands where none may. -/
def isMisplacedColon (flow : Bool) (c : Char) (cs : List Char) : Bool :=
  flow && c = ':' && cs.head?.any fun d ↦ d ∈ [',', '?', '[', ']', '{', '}']

/-- The text of a plain scalar. -/
def plainScalar (flow : Bool) (indent : Int) (fresh : Bool) (f : Folding) (m : Mark) :
    List Char → Option PlainScalar
  | [] => some ⟨f.result, f.breaks.isSome, ⟨m, []⟩⟩
  | c :: cs =>
    if isBlank c then
      if f.breaks.isSome ∧ (m.column : Int) < indent ∧ c = '\t' then none
      else plainScalar flow indent true (f.blank c) (m.past c) cs
    else if isBreak c then plainScalar flow indent true (f.lineBreak c) (m.past c) cs
    else if isMisplacedColon flow c cs then none
    else if endsPlain flow indent fresh m c cs then
      some ⟨f.result, f.breaks.isSome, ⟨m, c :: cs⟩⟩
    else plainScalar flow indent false (f.char c) (m.past c) cs

end Interpolation.Yaml
