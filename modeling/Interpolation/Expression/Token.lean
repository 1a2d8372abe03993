/-!
# Tokens of expressions

An expression is made of names, quoted texts, three connectives and parentheses. No two of these
begin with the same character, so the first character of a token decides its kind.
-/

namespace Interpolation

/-- The connectives, weakest first. -/
inductive Connective where
  | or
  | and
  | dot
  deriving DecidableEq, Repr

namespace Connective

/-- How tightly a connective binds its operands. -/
def strength : Connective → Nat
  | or => 0
  | and => 1
  | dot => 2

end Connective

/-- Connectives and parentheses. -/
inductive Operator where
  | connective (c : Connective)
  | leftParen
  | rightParen
  deriving DecidableEq, Repr

namespace Operator

/-- The spelling of an operator. -/
def symbol : Operator → String
  | connective .or => "||"
  | connective .and => "&&"
  | connective .dot => "."
  | leftParen => "("
  | rightParen => ")"

/-- The operator at the start of a text, with the text after it. -/
def ofText? : List Char → Option (Operator × List Char)
  | '|' :: '|' :: rest => some (connective .or, rest)
  | '&' :: '&' :: rest => some (connective .and, rest)
  | '.' :: rest => some (connective .dot, rest)
  | '(' :: rest => some (leftParen, rest)
  | ')' :: rest => some (rightParen, rest)
  | _ => none

theorem ofText?_symbol (op : Operator) (rest : List Char) :
    ofText? (op.symbol.toList ++ rest) = some (op, rest) := by
  rcases op with (_ | _ | _) | _ | _ <;> rfl

theorem ofText?_eq_some_iff {cs rest : List Char} {op : Operator} :
    ofText? cs = some (op, rest) ↔ cs = op.symbol.toList ++ rest := by
  constructor
  · intro h
    unfold ofText? at h
    split at h <;> simp_all [symbol] <;> obtain ⟨rfl, rfl⟩ := h <;> rfl
  · rintro rfl
    exact ofText?_symbol op rest

/-- The operator of a spelling. -/
def ofSymbol? (s : String) : Option Operator :=
  match ofText? s.toList with
  | some (op, []) => some op
  | _ => none

end Operator

/-- A token; the text of a quoted one has its quotes resolved. -/
inductive Token where
  | name (s : String)
  | quoted (s : String)
  | operator (op : Operator)
  deriving DecidableEq, Repr

/-- Spaces, tabs, carriage returns and line feeds may stand before any token. -/
def isBlank (c : Char) : Bool := c = ' ' || c = '\t' || c = '\r' || c = '\n'

/-- Names are made of ASCII letters and digits, underscores and hyphens. -/
def isNameChar (c : Char) : Bool := c.isAlphanum || c = '_' || c = '-'

/-! ## Quoted texts -/

/-- The inside of a quoted text: each quote is written twice. -/
def doubleQuotes : List Char → List Char
  | [] => []
  | c :: cs => if c = '\'' then '\'' :: '\'' :: doubleQuotes cs else c :: doubleQuotes cs

/-- The quoted form of a text. -/
def quote (s : List Char) : List Char := '\'' :: (doubleQuotes s ++ ['\''])

/-- Reads the inside of a quoted text up to the closing quote, pairs of quotes from left to right
standing for one; `none` if no quote closes it. -/
def closeQuote? : List Char → Option (List Char × List Char)
  | [] => none
  | '\'' :: '\'' :: rest => (closeQuote? rest).map fun (s, r) ↦ ('\'' :: s, r)
  | c :: rest =>
    if c = '\'' then some ([], rest) else (closeQuote? rest).map fun (s, r) ↦ (c :: s, r)

end Interpolation
