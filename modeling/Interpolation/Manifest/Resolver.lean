import Interpolation.Manifest.Failure
import Interpolation.Settings.Basic

/-!
# Resolving manifests

A resolver changes the entries of a manifest and nothing else: a text with spans becomes its
rendering, a boolean or a number becomes its text, and a text without spans stays. An entry with
any failure stays as it is; what becomes of the manifest then is up to the policy.

Every entry is judged by its value in the manifest as it was given, and written through its pointer
into the document that is made from it; an entry reached by several paths is simply written again.
-/

namespace Interpolation

namespace Entry

/-- The text that replaces an entry's value, if any does, and the entry's failures. -/
def replacement (context : Document) (e : Entry) : Option String × List Failure :=
  match e.value with
  | .string text =>
    let t := Template.ofString text
    let r := t.renderLossy context
    if ¬ t.hasSpans then (none, [])
    else if r.errors = [] then (some r.text, [])
    else (none, Failure.ofSpans e text r.errors)
  | .bool b => ((Value.document (.bool b)).text?, [])
  | .number n => ((Value.document (.number n)).text?, [])
  | _ => (none, [.notText e.path])

/-- The names that an entry reads right below a prefix, and the failures that show without a
context. -/
def names (segments : List String) (e : Entry) : List String × List Failure :=
  match e.value with
  | .string text =>
    match (Template.ofString text).names segments with
    | .ok ns => (ns, [])
    | .error errors => ([], Failure.ofSpans e text errors)
  | .bool _ => ([], [])
  | .number _ => ([], [])
  | _ => ([], [.notText e.path])

/-- Writes an entry's replacement into a document. -/
def write (context : Document) (d : Document) (e : Entry) : Document :=
  match (e.replacement context).1 with
  | none => d
  | some text => (d.replaceAt? e.pointer (.string text)).getD d

end Entry

/-- A resolved manifest and the failures that were passed over. -/
structure Resolution where
  document : Document
  warnings : List Failure
  deriving Repr

namespace Settings

/-- The entries of a manifest. -/
def entries (s : Settings) (d : Document) : List Entry := Entry.ofPaths s.envPaths d

/-- The document with every entry written that can be. -/
def written (s : Settings) (d context : Document) : Document :=
  (s.entries d).foldl (Entry.write context) d

/-- All failures of the entries in a context. -/
def failures (s : Settings) (d context : Document) : List Failure :=
  (s.entries d).flatMap fun e ↦ (e.replacement context).2

/-- Resolves a manifest in a context. -/
def resolve (s : Settings) (d context : Document) : Except ManifestError Resolution :=
  let failures := s.failures d context
  if failures = [] then .ok ⟨s.written d context, []⟩
  else match s.policy with
    | .fail => .error (.evaluation failures)
    | .preserve => .ok ⟨s.written d context, failures⟩

/-- The different names that a manifest's entries read right below a prefix, in order. -/
def names (s : Settings) (d : Document) (segments : List String) :
    Except ManifestError (List String) :=
  let found := (s.entries d).map (Entry.names segments)
  let failures := found.flatMap Prod.snd
  if failures = [] then .ok (distinct (found.flatMap Prod.fst)) else .error (.validation failures)

end Settings

end Interpolation
