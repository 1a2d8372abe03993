import Mathlib
import Interpolation.Proofs.Expression.Bytewise
import Interpolation.Proofs.Expression.Fault

/-!
# Reading by climbing

The reader of the library takes the lexemes of the whole text and goes through the strengths of the
connectives from the tightest on. This one scans as it goes, byte by byte, and tries every operator
at the cursor in a loop: one that binds tightly enough is taken, and its right-hand side is read
with its own strength as the least one. How many levels are open is counted.

There is no answer if a part of the text is asked for that does not exist, nor if the reading does
not come to an end, since the loop took an operator without moving on or more levels were opened
than there may be. Neither ever happens, and the answer is that of the library.
-/

namespace Interpolation

open Text

/-- A place in a text, and how many levels are open there. -/
structure Parser where
  cursor : ByteCursor
  depth : Nat

namespace Parser

/-- An answer, with the state that is left behind also by an error. -/
abbrev Parsed (α : Type) := Except SyntaxError α × Parser

/-- Reads an expression whose operators bind at least as tightly as a connective. The rest of the
text may have to be read as a whole. -/
abbrev Next := Parser → Connective → Bool → Option (Parsed (Option Tree))

def start (text : List Char) (offset : Nat) : Parser := ⟨⟨text, offset, 0⟩, 0⟩

def skipBlanks (p : Parser) : Parser := { p with cursor := p.cursor.skipBlanks }

def advance (p : Parser) (op : Operator) : Parser := { p with cursor := p.cursor.advance op }

/-- One level deeper, unless it would be too deep. -/
def deeper? (p : Parser) : Option Parser :=
  if p.depth < Tree.maxLevels then some { p with depth := p.depth + 1 } else none

def shallower (p : Parser) : Parser := { p with depth := p.depth - 1 }

/-- How many bytes of the text are left. -/
def remaining (p : Parser) : Nat := byteLength p.cursor.text - p.cursor.position

theorem remaining_skipBlanks_le (p : Parser) : p.skipBlanks.remaining ≤ p.remaining :=
  Nat.sub_le_sub_left (Nat.le_add_right _ _) _

/-- The name or the quoted text at the cursor. If there is another token or none, the cursor stays
where it is. -/
def atom (p : Parser) : Option (Parsed (Option Tree)) := do
  match ← p.cursor.next with
  | (.error e, b) => some (.error e, { p with cursor := b })
  | (.ok (some (.name s, _)), b) => some (.ok (some (.name s)), { p with cursor := b })
  | (.ok (some (.quoted s, _)), b) => some (.ok (some (.quoted s)), { p with cursor := b })
  | (.ok _, _) => some (.ok none, p)

/-- Takes the closing parenthesis behind the content of the pair that was opened at a byte. -/
def close (p : Parser) (place : Nat) (content : Option Tree) :
    Option (Parsed (Bool × Option Tree)) := do
  let unclosed : Option (Parsed (Bool × Option Tree)) :=
    (p.cursor.rest? place).map fun rest ↦ (.error (p.cursor.unexpected rest place), p)
  match content with
  | none => unclosed
  | some t =>
    let seen ← p.cursor.operator?
    if seen = some .rightParen then some (.ok (true, some (.group t)), p.advance .rightParen)
    else unclosed

section Level

variable (inner : Next)

/-- Takes the connective `c`, which is at the cursor, and its right-hand side. -/
def join (p : Parser) (c : Connective) (operand : Option Tree) :
    Option (Parsed (Bool × Option Tree)) :=
  let missing := p.cursor.unexpected (Operator.connective c).symbol.toList p.cursor.position
  match operand with
  | none => some (.error missing, p)
  | some l =>
    match (p.advance (.connective c)).deeper? with
    | none => some (.error missing, p.advance (.connective c))
    | some q => (inner q c false).map fun
      | (.error e, q) => (.error e, q.shallower)
      | (.ok none, q) => (.error missing, q.shallower)
      | (.ok (some r), q) => (.ok (true, some (.join c l r)), q.shallower)

/-- Takes the opening parenthesis, which is at the cursor, and the pair that it belongs to. -/
def enclose (p : Parser) (operand : Option Tree) : Option (Parsed (Bool × Option Tree)) := do
  let refused := p.cursor.unexpected Operator.leftParen.symbol.toList p.cursor.position
  match operand with
  | some _ => some (.error refused, p)
  | none =>
    match (p.advance .leftParen).deeper? with
    | none => some (.error refused, p.advance .leftParen)
    | some q =>
      match ← inner q .or false with
      | (.error e, q) => some (.error e, q.shallower)
      | (.ok content, q) => q.shallower.skipBlanks.close p.cursor.position content

/-- Takes the connective `c` if it is at the cursor and binds tightly enough, and says whether it
was taken. -/
def binary (p : Parser) (c least : Connective) (operand : Option Tree) :
    Option (Parsed (Bool × Option Tree)) := do
  let seen ← p.cursor.operator?
  if seen = some (.connective c) ∧ least.strength ≤ c.strength then p.join inner c operand
  else some (.ok (false, operand), p)

/-- Takes a pair of parentheses if it begins at the cursor, and says whether it was taken. -/
def group (p : Parser) (operand : Option Tree) : Option (Parsed (Bool × Option Tree)) := do
  let seen ← p.cursor.operator?
  if seen = some .leftParen then p.enclose inner operand else some (.ok (false, operand), p)

/-- Tries every operator at the cursor, and says whether there was one to take. -/
def operator (p : Parser) (least : Connective) (operand : Option Tree) :
    Option (Parsed (Bool × Option Tree)) := do
  match ← p.binary inner .or least operand with
  | (.ok (false, operand), p) =>
    match ← p.binary inner .and least operand with
    | (.ok (false, operand), p) =>
      match ← p.binary inner .dot least operand with
      | (.ok (false, operand), p) => p.group inner operand
      | answer => some answer
    | answer => some answer
  | answer => some answer

/-- Takes operators for as long as there are any. -/
def operators (p : Parser) (least : Connective) (operand : Option Tree) :
    Option (Parsed (Option Tree)) :=
  if p.skipBlanks.cursor.atEnd then some (.ok operand, p.skipBlanks)
  else
    match p.skipBlanks.operator inner least operand with
    | none => none
    | some (.error e, q) => some (.error e, q)
    | some (.ok (false, operand), q) => some (.ok operand, q)
    | some (.ok (true, operand), q) =>
      if q.remaining < p.skipBlanks.remaining then q.operators least operand else none
termination_by p.remaining
decreasing_by exact Nat.lt_of_lt_of_le ‹_› p.remaining_skipBlanks_le

/-- Takes an operand and the operators behind it. -/
def expression (p : Parser) (least : Connective) : Option (Parsed (Option Tree)) := do
  match ← p.skipBlanks.atom with
  | (.error e, p) => some (.error e, p)
  | (.ok operand, p) => p.operators inner least operand

/-- The end of an expression. Text may be left only behind an operand, and only if the text need not
be read as a whole. -/
def finish (whole : Bool) : Parsed (Option Tree) → Option (Parsed (Option Tree))
  | (.error e, p) => some (.error e, p)
  | (.ok operand, p) =>
    if (whole ∨ operand = none) ∧ ¬ p.cursor.atEnd then
      p.cursor.unexpectedHere?.map fun e ↦ (.error e, p)
    else some (.ok operand, p)

/-- One level, given the reader of the next deeper one. -/
def level : Next := fun p least whole ↦ (p.expression inner least).bind (finish whole)

end Level

/-- The reader with `n` levels, itself included. -/
def next : Nat → Next
  | 0 => fun _ _ _ ↦ none
  | n + 1 => level (next n)

/-- Reads a whole text as one expression. -/
def parse (text : List Char) (offset : Nat) : Option (Except SyntaxError Tree) := do
  match ← next (Tree.maxLevels + 1) (start text offset) .or true with
  | (.error e, _) => some (.error e)
  | (.ok none, _) => some (.error (.expressionExpected offset))
  | (.ok (some t), _) => some (.ok t)

/-! ## Which operator is taken -/

variable {inner : Next} {p q : Parser} {c least : Connective} {operand result : Option Tree}
  {seen : Option Operator}

theorem binary_of_seen (hseen : p.cursor.operator? = some (some (.connective c)))
    (hc : least.strength ≤ c.strength) :
    p.binary inner c least operand = p.join inner c operand := by
  rw [binary, hseen]
  exact if_pos ⟨rfl, hc⟩

theorem binary_of_not_seen (hseen : p.cursor.operator? = some seen)
    (h : seen = some (.connective c) → c.strength < least.strength) :
    p.binary inner c least operand = some (.ok (false, operand), p) := by
  rw [binary, hseen]
  exact if_neg fun hc ↦ Nat.not_le.mpr (h hc.1) hc.2

theorem group_of_seen (hseen : p.cursor.operator? = some (some .leftParen)) :
    p.group inner operand = p.enclose inner operand := by
  rw [group, hseen, Option.bind_eq_bind, Option.bind_some, if_pos rfl]

theorem group_of_not_seen (hseen : p.cursor.operator? = some seen) (h : seen ≠ some .leftParen) :
    p.group inner operand = some (.ok (false, operand), p) := by
  rw [group, hseen]
  exact if_neg h

/-- A connective that is taken is not reported as absent, so that nothing else is tried. -/
theorem join_bind (more : Option Tree → Parser → Option (Parsed (Bool × Option Tree))) :
    (do
      match ← p.join inner c operand with
      | (.ok (false, operand), p) => more operand p
      | answer => some answer) = p.join inner c operand := by
  obtain _ | l := operand
  · rfl
  simp only [join]
  split
  · rfl
  · rename_i q _
    rcases inner q c false with _ | ⟨e | _ | r, q⟩ <;> rfl

/-- **The operators are tried in order**, but at most one of them is there. -/
theorem operator_of_connective (hseen : p.cursor.operator? = some (some (.connective c)))
    (hc : least.strength ≤ c.strength) :
    p.operator inner least operand = p.join inner c operand := by
  cases c with
  | or => rw [operator, binary_of_seen hseen hc, join_bind]
  | and =>
    rw [operator, binary_of_not_seen hseen (by simp), Option.bind_eq_bind, Option.bind_some]
    simp only [binary_of_seen hseen hc]
    exact join_bind _
  | dot =>
    rw [operator, binary_of_not_seen hseen (by simp), Option.bind_eq_bind, Option.bind_some]
    have hand : p.binary inner .and least operand = some (.ok (false, operand), p) :=
      binary_of_not_seen hseen (by simp)
    simp only [hand, Option.bind_some]
    rw [binary_of_seen hseen hc]
    exact join_bind _

theorem operator_of_not_connective (hseen : p.cursor.operator? = some seen)
    (h : ∀ c, seen = some (.connective c) → c.strength < least.strength) :
    p.operator inner least operand = p.group inner operand := by
  rw [operator, binary_of_not_seen hseen (h .or)]
  simp only [Option.bind_eq_bind, Option.bind_some, binary_of_not_seen hseen (h .and),
    binary_of_not_seen hseen (h .dot)]

end Parser

end Interpolation
