import Interpolation.Expression.Token

/-!
# Expression trees

Parentheses are kept in the tree: they do not change the value, but they decide how names are
discovered under a prefix, and a tree can be read back to its tokens.

Several measures are attached. `nesting` counts what the reader of expressions limits: the content
of parentheses and the right-hand side of a connective lie one level deeper, a left-hand side does
not. `height` counts the nodes of the longest path, which is what recursion over the tree costs.
-/

namespace Interpolation

/-- An expression. -/
inductive Tree where
  | name (s : String)
  | quoted (s : String)
  | group (inner : Tree)
  | join (c : Connective) (left right : Tree)
  deriving DecidableEq, Repr, Inhabited

namespace Tree

/-- The tokens of an expression in reading order. -/
def tokens : Tree → List Token
  | name s => [.name s]
  | quoted s => [.quoted s]
  | group t => .operator .leftParen :: (t.tokens ++ [.operator .rightParen])
  | join c l r => l.tokens ++ .operator (.connective c) :: r.tokens

/-- How many levels lie above the deepest one. -/
def nesting : Tree → Nat
  | name _ => 0
  | quoted _ => 0
  | group t => 1 + t.nesting
  | join _ l r => max l.nesting (1 + r.nesting)

/-- The number of nodes on the longest path from the root. -/
def height : Tree → Nat
  | name _ => 1
  | quoted _ => 1
  | group t => 1 + t.height
  | join _ l r => 1 + max l.height r.height

/-- The connective at the root. -/
def root? : Tree → Option Connective
  | join c _ _ => some c
  | _ => none

/-- Every chain of one connective leans to the right, and a weaker connective stands under a
stronger one only within parentheses. -/
def Canonical : Tree → Prop
  | name _ => True
  | quoted _ => True
  | group t => t.Canonical
  | join c l r =>
    (∀ d, l.root? = some d → c.strength < d.strength) ∧
      (∀ d, r.root? = some d → c.strength ≤ d.strength) ∧ l.Canonical ∧ r.Canonical

end Tree

end Interpolation
