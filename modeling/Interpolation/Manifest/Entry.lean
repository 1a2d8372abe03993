import Interpolation.Document.Pointer

/-!
# The entries of a manifest

A manifest is a document with env maps at dotted paths. A path is walked from the root: each of its
segments is a step into an object, and arrays that are met before a step are entered at every
element, so that one path may lead to many maps. What is reached after the last segment counts only
if it is an object; its fields are the entries.
-/

namespace Interpolation

open Text

namespace Document

mutual

/-- The document itself, or if it is an array, what its elements spread to. -/
def spread : Document → List (List Step × Document)
  | array items => spreadItems 0 items
  | d => [([], d)]

/-- What the elements of an array spread to, the first of them having number `i`. -/
def spreadItems (i : Nat) : List Document → List (List Step × Document)
  | [] => []
  | d :: ds => (spread d).map (fun (steps, e) ↦ (.index i :: steps, e)) ++ spreadItems (i + 1) ds

end

/-- All places that a path leads to, with what lies there. -/
def walks : List String → Document → List (List Step × Document)
  | [], d => [([], d)]
  | segment :: segments, d => d.spread.flatMap fun (steps, e) ↦
    match e.field? segment with
    | none => []
    | some child => (walks segments child).map fun (more, x) ↦ (steps ++ .key segment :: more, x)

end Document

/-- A field of an env map. -/
structure Entry where
  /-- The steps from the root to the env map. -/
  steps : List Step
  key : String
  value : Document
  deriving Repr

namespace Entry

/-- The steps from the root to the value. -/
def location (e : Entry) : List Step := e.steps ++ [.key e.key]

/-- The place of the value for reading. -/
def path (e : Entry) : String := ".".intercalate (e.location.map Step.display)

/-- The pointer to the value. -/
def pointer (e : Entry) : String := Pointer.ofSteps e.location

/-- The entries of one path, in the order of the document. -/
def ofPath (path : String) (d : Document) : List Entry :=
  (d.walks (dotted path)).flatMap fun (steps, env) ↦ env.fields.map fun (k, v) ↦ ⟨steps, k, v⟩

/-- The entries of several paths, path by path. -/
def ofPaths (paths : List String) (d : Document) : List Entry := paths.flatMap fun p ↦ ofPath p d

end Entry

end Interpolation
