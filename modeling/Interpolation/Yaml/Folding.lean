import Interpolation.Yaml.Character

/-!
# Scalars that go over several lines

In plain and quoted scalars a line break counts as a space, several as one less than they are, and
blanks around line breaks do not count. What a run of blanks and breaks comes to is known only when
the text goes on behind it, so a `Folding` holds the text so far and the run behind it.
-/

namespace Interpolation.Yaml

/-- The text of a scalar so far; all texts here are reversed. -/
structure Folding where
  text : List Char
  /-- Blanks behind the text with no line break yet. -/
  blanks : List Char
  /-- The first line break behind the text and the later ones. There is no first one if the line
  was joined to the next by a backslash. -/
  breaks : Option (Option Char × List Char)
  deriving Repr

namespace Folding

def empty : Folding := ⟨[], [], none⟩

/-- Takes a blank; behind a line break it is indentation. -/
def blank (f : Folding) (c : Char) : Folding :=
  match f.breaks with
  | none => { f with blanks := c :: f.blanks }
  | some _ => f

/-- Takes a line break; blanks before it are dropped. -/
def lineBreak (f : Folding) (c : Char) : Folding :=
  match f.breaks with
  | none => { f with blanks := [], breaks := some (some c, []) }
  | some (first, more) => { f with breaks := some (first, c :: more) }

/-- Turns the run of blanks and breaks into text. -/
def settle (f : Folding) : Folding :=
  match f.breaks with
  | none => ⟨f.blanks ++ f.text, [], none⟩
  | some (some '\n', []) => ⟨' ' :: f.text, [], none⟩
  | some (some '\n', more) => ⟨more ++ f.text, [], none⟩
  | some (first, more) => ⟨more ++ first.toList ++ f.text, [], none⟩

/-- Takes a character of the text. -/
def char (f : Folding) (c : Char) : Folding :=
  let f := f.settle
  { f with text := c :: f.text }

/-- Takes a line break after a backslash, which joins the lines. -/
def join (f : Folding) : Folding := { f.settle with breaks := some (none, []) }

/-- The text without the run behind it. -/
def result (f : Folding) : String := String.ofList f.text.reverse

end Folding

end Interpolation.Yaml
