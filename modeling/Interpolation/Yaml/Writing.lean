import Interpolation.Decimal.Layout
import Interpolation.Yaml.Style

/-!
# YAML text of documents

Mappings and sequences are written as blocks, two columns deeper than what they stand in; only a
sequence that is a value of a mapping stands at the column of its keys. A block that stands behind
the dash of an item, or the mark of a long key, begins on the same line. Empty collections are
written in brackets.
-/

namespace Interpolation.Yaml

/-- Fractions always have a point or an exponent; exponents begin at 1e16 and below 1e-5. -/
def numberLayout : Layout where
  tie := .even
  least := -4
  greatest := 16
  wholeMark := ".0"
  exponentSign := ""
  signedZero := true

namespace Writing

def spaces (n : Nat) : List Char := List.replicate n ' '

/-! ## Scalars -/

/-- A text of one line in single quotes. The separators that count as line breaks are followed by
indentation. -/
def singleQuoted (indent : Nat) (fresh : Bool) : List Char → List Char
  | [] => (if fresh then spaces indent else []) ++ ['\'']
  | c :: cs =>
    if Style.isBreak c then c :: singleQuoted indent true cs
    else
      (if fresh then spaces indent else []) ++ (if c = '\'' then ['\'', '\''] else [c]) ++
        singleQuoted indent false cs

/-- A number in hexadecimal digits, with at least so many of them. -/
def hexadecimal (width n : Nat) : List Char :=
  let digits := (Nat.toDigits 16 n).map Char.toUpper
  List.replicate (width - digits.length) '0' ++ digits

/-- The escape of a character behind its backslash. -/
def escape (c : Char) : List Char :=
  match c with
  | '\x00' => ['0']
  | '\x07' => ['a']
  | '\x08' => ['b']
  | '\t' => ['t']
  | '\n' => ['n']
  | '\x0b' => ['v']
  | '\x0c' => ['f']
  | '\r' => ['r']
  | '\x1b' => ['e']
  | '"' => ['"']
  | '\\' => ['\\']
  | '\u0085' => ['N']
  | '\u2028' => ['L']
  | '\u2029' => ['P']
  | c =>
    let n := c.toNat
    if n ≤ 0xFF then 'x' :: hexadecimal 2 n
    else if n ≤ 0xFFFF then 'u' :: hexadecimal 4 n
    else 'U' :: hexadecimal 8 n

/-- The inside of a text in double quotes. -/
def escaped (cs : List Char) : List Char :=
  cs.flatMap fun c ↦
    if ¬ Style.isPrintable c ∨ Style.isBreak c ∨ c = '"' ∨ c = '\\' then '\\' :: escape c else [c]

/-- Whether a literal block has to keep the line breaks at its end. -/
def keepsBreaks (cs : List Char) : Bool :=
  match cs.reverse with
  | [c] => Style.isBreak c
  | c :: d :: _ => Style.isBreak c && Style.isBreak d
  | [] => false

/-- The header of a literal block: its indentation if the first line does not show it, and what is
to be done with the breaks at its end. -/
def literalHeader (cs : List Char) : List Char :=
  let indentation := if cs.head?.any (fun c ↦ c = ' ' || Style.isBreak c) then ['2'] else []
  let breaks :=
    if keepsBreaks cs then ['+'] else if cs.getLast?.any Style.isBreak then [] else ['-']
  '|' :: (indentation ++ breaks)

/-- The lines of a literal block; the last one is ended if the text does not end it. -/
def literalLines (indent : Nat) (fresh : Bool) : List Char → List Char
  | [] => if fresh then [] else ['\n']
  | c :: cs =>
    if Style.isBreak c then c :: literalLines indent true cs
    else (if fresh then spaces indent else []) ++ c :: literalLines indent false cs

/-- A text in a style; a literal block ends its line, other styles do not. -/
def styled (indent : Nat) (s : String) : List Char :=
  let cs := s.toList
  match Style.ofText s with
  | .plain => cs
  | .singleQuoted => '\'' :: singleQuoted indent false cs
  | .doubleQuoted => '"' :: (escaped cs ++ ['"'])
  | .literal => literalHeader cs ++ '\n' :: literalLines indent true cs

/-- A text and the end of its line. -/
def line (indent : Nat) (s : String) : List Char :=
  styled indent s ++ (if Style.ofText s = .literal then [] else ['\n'])

/-- A number. -/
def number : Number → List Char
  | .integer i => i.repr.toList
  | .float b => (numberLayout.text b).toList

/-- A document on one line, or in a literal block whose lines stand at `indent`; collections that
are not empty are none. -/
def scalar? (indent : Nat) : Document → Option (List Char)
  | .null => some "null\n".toList
  | .bool b => some (if b then "true\n".toList else "false\n".toList)
  | .number n => some (number n ++ ['\n'])
  | .string s => some (line indent s)
  | .array [] => some "[]\n".toList
  | .object [] => some "\x7b\x7d\n".toList
  | _ => none

/-- A key and the mark behind it, up to where its value begins. The answer says whether the value
begins a line of its own: behind a key that is too long for one line it does not. -/
def key (indent : Nat) (k : String) : List Char × Bool :=
  if Style.isSimpleKey k then (styled (indent + 2) k ++ [':'], true)
  else ('?' :: ' ' :: line (indent + 2) k ++ spaces indent ++ [':'], false)

/-! ## Collections -/

mutual

/-- A document behind the dash of an item, or behind the mark of a long key. -/
def inline (indent : Nat) : Document → List Char
  | .array (d :: ds) => ' ' :: items (indent + 2) true (d :: ds)
  | .object (f :: fs) => ' ' :: fields (indent + 2) true (f :: fs)
  | d => ' ' :: (scalar? (indent + 2) d).getD []

/-- A document behind a key. -/
def value (indent : Nat) : Document → List Char
  | .array (d :: ds) => '\n' :: items indent false (d :: ds)
  | .object (f :: fs) => '\n' :: fields (indent + 2) false (f :: fs)
  | d => ' ' :: (scalar? (indent + 2) d).getD []

/-- The items of a sequence, of which the first may go on a line. -/
def items (indent : Nat) (first : Bool) : List Document → List Char
  | [] => []
  | d :: ds =>
    (if first then [] else spaces indent) ++ '-' :: inline indent d ++ items indent false ds

/-- The fields of a mapping, of which the first may go on a line. -/
def fields (indent : Nat) (first : Bool) : List (String × Document) → List Char
  | [] => []
  | (k, d) :: fs =>
    let (text, fresh) := key indent k
    (if first then [] else spaces indent) ++ text ++
      (if fresh then value indent d else inline indent d) ++ fields indent false fs

end

/-- A document that stands alone. -/
def root : Document → List Char
  | .array (d :: ds) => items 0 true (d :: ds)
  | .object (f :: fs) => fields 0 true (f :: fs)
  | d => (scalar? 2 d).getD []

end Writing

end Yaml

namespace Document

/-- The YAML text of a document. -/
def toYaml (d : Document) : String := String.ofList (Yaml.Writing.root d)

end Document

end Interpolation
