/-!
# Characters of YAML text

Which characters may occur, which of them separate, and where in a text one stands. Line breaks of
all spellings but the two Unicode separators are read as one line feed; so every break is one
character, and a scan can go on character by character.
-/

namespace Interpolation.Yaml

/-- Whether a character may occur at all. -/
def isAllowed (c : Char) : Bool :=
  let n := c.toNat
  n = 0x09 || n = 0x0A || n = 0x0D || (0x20 ≤ n && n ≤ 0x7E) || n = 0x85 ||
    (0xA0 ≤ n && n ≤ 0xFFFD) || 0x10000 ≤ n

/-- A space or a tab. -/
def isBlank (c : Char) : Bool := c = ' ' || c = '\t'

/-- A line break, after line breaks have been unified. -/
def isBreak (c : Char) : Bool := c = '\n' || c = '\u2028' || c = '\u2029'

/-- Unifies line breaks: a carriage return with or without a line feed, and a next-line character,
become a line feed. -/
def unifyBreaks : List Char → List Char
  | [] => []
  | '\r' :: '\n' :: cs => '\n' :: unifyBreaks cs
  | '\r' :: cs => '\n' :: unifyBreaks cs
  | '\u0085' :: cs => '\n' :: unifyBreaks cs
  | c :: cs => c :: unifyBreaks cs

/-- Letters, digits, underscores and hyphens of ASCII make up the names of anchors, of directives
and of tag handles. -/
def isWord (c : Char) : Bool := c.isAlphanum || c = '_' || c = '-'

/-- Whether the text is over here, or goes on with a blank or a line break. -/
def endsWord : List Char → Bool
  | [] => true
  | c :: _ => isBlank c || isBreak c

/-- Whether a document mark stands here, if this is the start of a line. -/
def isMarker : List Char → Bool
  | '-' :: '-' :: '-' :: cs => endsWord cs
  | '.' :: '.' :: '.' :: cs => endsWord cs
  | _ => false

/-- Where a character stands. -/
structure Mark where
  line : Nat
  column : Nat
  /-- The number of bytes before it. -/
  index : Nat
  deriving DecidableEq, Repr

/-- The mark behind a character. -/
def Mark.past (m : Mark) (c : Char) : Mark :=
  if isBreak c then ⟨m.line + 1, 0, m.index + c.utf8Size⟩
  else ⟨m.line, m.column + 1, m.index + c.utf8Size⟩

/-- A mark and the text from there on. -/
structure Place where
  mark : Mark
  rest : List Char
  deriving Repr

namespace Place

/-- The place before a text. -/
def start (text : List Char) : Place := ⟨⟨0, 0, 0⟩, text⟩

/-- The place behind the next `n` characters. -/
def drop : Nat → Place → Place
  | 0, p => p
  | n + 1, p =>
    match p.rest with
    | [] => p
    | c :: cs => drop n ⟨p.mark.past c, cs⟩

/-- The characters from here on that satisfy `p`, and the place behind them. -/
def span (p : Char → Bool) (here : Place) : List Char × Place :=
  let cs := here.rest.takeWhile p
  (cs, here.drop cs.length)

/-- The place behind all characters from here on that satisfy `p`. -/
def skip (p : Char → Bool) (here : Place) : Place := (here.span p).2

/-- The place behind the rest of a line that may hold only blanks and a comment; its line break is
passed too. -/
def endLine? (here : Place) : Option Place :=
  let here := here.skip isBlank
  let here := match here.rest with
    | '#' :: _ => here.skip (¬ isBreak ·)
    | _ => here
  match here.rest with
  | [] => some here
  | c :: cs => if isBreak c then some ⟨here.mark.past c, cs⟩ else none

end Place

end Interpolation.Yaml
