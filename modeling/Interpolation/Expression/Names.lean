import Interpolation.Expression.Tree

/-!
# Names that an expression reads

Without any context, an expression is searched for the names that it reads: those of the root, or
those right below a dotted prefix. The search goes by the text alone, so it also finds names in
operands that an evaluation would skip.
-/

namespace Interpolation

namespace Tree

/-- The names of the root, in reading order with repetitions: whatever follows a dot is read from
elsewhere. -/
def rootNames : Tree → List String
  | name s => [s]
  | quoted _ => []
  | group t => t.rootNames
  | join .dot l _ => l.rootNames
  | join _ l r => l.rootNames ++ r.rootNames

/-- The names right below a prefix, in reading order with repetitions. A dot takes the first
segment of the prefix off if the left side reads a root name of that spelling. -/
def names : Tree → List String → List String
  | name s, [] => [s]
  | name _, _ :: _ => []
  | quoted _, _ => []
  | group t, segments => t.names segments
  | join .dot l _, [] => l.rootNames
  | join .dot l r, head :: rest => if head ∈ l.rootNames then r.names rest else []
  | join _ l r, segments => l.names segments ++ r.names segments

/-- Under the empty prefix there are just the root names. -/
@[simp] theorem names_nil (t : Tree) : t.names [] = t.rootNames := by
  induction t with
  | name s => rfl
  | quoted s => rfl
  | group t ih => exact ih
  | join c l r ihl ihr => cases c <;> simp [names, rootNames, ihl, ihr]

end Tree

/-- The first occurrence of each name, in order. -/
def distinct (names : List String) : List String :=
  (names.foldl (fun seen name ↦ if name ∈ seen then seen else name :: seen) []).reverse

end Interpolation
