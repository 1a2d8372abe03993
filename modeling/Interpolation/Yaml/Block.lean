import Interpolation.Yaml.Character

/-!
# Block scalars

A block scalar takes the lines below its indicator that are indented deeply enough. A literal one
keeps its line breaks; a folded one joins lines by a space, but not lines that begin with a blank.
Line breaks at the end are clipped to one, stripped or kept, as the header says.
-/

namespace Interpolation.Yaml

/-- What becomes of line breaks at the end. -/
inductive Chomping where
  | clip
  | strip
  | keep
  deriving DecidableEq, Repr

/-- What the header of a block scalar says. -/
structure BlockHeader where
  folded : Bool
  chomping : Chomping
  /-- The indentation relative to the surrounding one; 0 if the first line decides. -/
  increment : Nat
  deriving DecidableEq, Repr

/-- Reads a digit above 0. -/
def increment? : List Char → Option (Nat × List Char)
  | c :: cs =>
    if c = '0' then none
    else if c.isDigit then some (c.toNat - '0'.toNat, cs)
    else some (0, c :: cs)
  | [] => some (0, [])

/-- Reads a chomping indicator. -/
def splitChomping : List Char → Chomping × List Char
  | '+' :: cs => (.keep, cs)
  | '-' :: cs => (.strip, cs)
  | cs => (.clip, cs)

/-- Reads the header behind the block indicator: the two indicators in either order. -/
def BlockHeader.ofText? (folded : Bool) (cs : List Char) : Option (BlockHeader × List Char) := do
  let (before, cs) := splitChomping cs
  let (n, cs) ← increment? cs
  if before ≠ .clip ∨ n = 0 then some (⟨folded, before, n⟩, cs)
  else
    let (after, cs) := splitChomping cs
    some (⟨folded, after, n⟩, cs)

/-- A block scalar that is being read; all texts are reversed. -/
structure BlockText where
  text : List Char
  /-- The break at the end of the last line with text. -/
  lead : Option Char
  /-- The breaks of the empty lines behind it. -/
  trail : List Char
  /-- Whether the last line with text began with a blank. -/
  blankLine : Bool

namespace BlockText

/-- Begins a line with its first character. -/
def openLine (folded : Bool) (t : BlockText) (c : Char) : BlockText :=
  let head :=
    if folded ∧ t.lead = some '\n' ∧ ¬ t.blankLine ∧ ¬ isBlank c then
      if t.trail = [] then [' '] else []
    else t.lead.toList
  ⟨c :: (t.trail ++ head ++ t.text), none, [], isBlank c⟩

/-- The text, with what the chomping leaves of the breaks at its end. -/
def result (chomping : Chomping) (t : BlockText) : String :=
  let text := if chomping = .strip then t.text else t.lead.toList ++ t.text
  let text := if chomping = .keep then t.trail ++ text else text
  String.ofList text.reverse

end BlockText

mutual

/-- Reads the indentation of lines and the breaks of empty ones. `indent` is 0 as long as it is
not known; it is then the greatest column met, `deepest`, but deeper than `outer`. -/
def blockGap (h : BlockHeader) (outer : Int) (indent deepest : Nat) (t : BlockText) (m : Mark) :
    List Char → Option (String × Place)
  | [] => some (t.result h.chomping, ⟨m, []⟩)
  | c :: cs =>
    let shallow : Bool := indent = 0 ∨ m.column < indent
    if c = ' ' ∧ shallow then blockGap h outer indent deepest t (m.past c) cs
    else if c = '\t' ∧ shallow then none
    else if isBreak c then
      blockGap h outer indent (max deepest m.column) { t with trail := c :: t.trail } (m.past c) cs
    else
      let indent :=
        if indent = 0 then max (max (max deepest m.column) (outer + 1).toNat) 1 else indent
      if m.column = indent then blockLine h outer indent (t.openLine h.folded c) (m.past c) cs
      else some (t.result h.chomping, ⟨m, c :: cs⟩)

/-- Reads the rest of a line. -/
def blockLine (h : BlockHeader) (outer : Int) (indent : Nat) (t : BlockText) (m : Mark) :
    List Char → Option (String × Place)
  | [] => some (t.result h.chomping, ⟨m, []⟩)
  | c :: cs =>
    if isBreak c then blockGap h outer indent 0 { t with lead := some c } (m.past c) cs
    else blockLine h outer indent { t with text := c :: t.text } (m.past c) cs

end

/-- Reads a block scalar behind its indicator. `outer` is the indentation around it. -/
def blockScalar (folded : Bool) (outer : Int) (here : Place) : Option (String × Place) := do
  let (h, rest) ← BlockHeader.ofText? folded here.rest
  let here := here.drop (here.rest.length - rest.length)
  let here ← here.endLine?
  let indent := if h.increment = 0 then 0 else (max outer 0).toNat + h.increment
  blockGap h outer indent 0 ⟨[], none, [], false⟩ here.mark here.rest

end Interpolation.Yaml
