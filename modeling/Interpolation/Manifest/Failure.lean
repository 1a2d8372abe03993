import Interpolation.Manifest.Entry
import Interpolation.Template.Rendering

/-!
# Failures of manifests

Each failure belongs to one entry: a span of its text that cannot be rendered, or a value that is
no text at all. The failures of a manifest are reported together, under a heading that says whether
it was to be evaluated or only searched.
-/

namespace Interpolation

/-- What is wrong with an entry. -/
inductive Failure where
  /-- A span of the text cannot be rendered. -/
  | unmapped (path text : String) (error : SpanError)
  /-- The value is null, an array or an object. -/
  | notText (path : String)
  deriving DecidableEq, Repr

namespace Failure

/-- The wording of a failure. -/
def message : Failure → String
  | unmapped path text error =>
    "Manifest env variable \"" ++ path ++ "\" can not be mapped to \"" ++ text ++ "\": " ++
      error.message
  | notText path => "\"" ++ path ++ "\" must be a string"

/-- Whether the failure shows only in some contexts: the expression is well-formed. -/
def dependsOnContext : Failure → Bool
  | unmapped _ _ error => ¬ error.defect.isMalformed
  | notText _ => false

/-- The failures of the spans of an entry's text. -/
def ofSpans (e : Entry) (text : String) (errors : List SpanError) : List Failure :=
  errors.map (unmapped e.path text)

end Failure

/-- The failures of a manifest. -/
inductive ManifestError where
  /-- It could not be resolved. -/
  | evaluation (failures : List Failure)
  /-- It could not be searched for names. -/
  | validation (failures : List Failure)
  deriving DecidableEq, Repr

namespace ManifestError

def failures : ManifestError → List Failure
  | evaluation fs => fs
  | validation fs => fs

/-- What the list of failures is headed by. -/
def heading : ManifestError → String
  | evaluation _ => "Evaluation error occurred:"
  | validation _ => "Validation error occurred:"

/-- The failures as a numbered list under the heading. -/
def message (e : ManifestError) : String :=
  let lines := e.failures.zipIdx.map fun (f, i) ↦ "  " ++ (i + 1).repr ++ ") " ++ f.message
  "\n".intercalate (e.heading :: lines)

end ManifestError

end Interpolation
