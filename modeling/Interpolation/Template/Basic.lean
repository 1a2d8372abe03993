import Interpolation.Expression.Basic
import Interpolation.Template.Piece

/-!
# Templates

A template is plain text with spans in it, each of which holds an expression. Making a template of
a text never fails: a span whose body is no expression is kept with its error, so that all defects
of a text can be reported together. Errors point into the whole text.
-/

namespace Interpolation

open Text

/-- A span of a template. -/
structure Span where
  /-- The text of the span with its marks. -/
  raw : String
  /-- The byte of the template at which the span begins. -/
  offset : Nat
  /-- The expression in the span, or why there is none. -/
  reading : Except SyntaxError Expression

/-- A part of a template. -/
inductive Segment where
  | plain (text : String)
  | span (s : Span)

/-- What is wrong with a span. -/
structure SpanError where
  raw : String
  offset : Nat
  defect : Defect
  deriving DecidableEq, Repr

namespace SpanError

/-- The wording of the error. -/
def message (e : SpanError) : String := e.defect.message

end SpanError

namespace Span

/-- The span of a body at byte `offset`. -/
def ofBody (body : List Char) (offset : Nat) : Span where
  raw := String.ofList (Piece.span body).text
  offset := offset
  reading := Expression.ofText body (offset + byteLength Piece.opening)

/-- The error of a span. -/
def fail (s : Span) (defect : Defect) : SpanError := ⟨s.raw, s.offset, defect⟩

/-- The error of a span that holds no expression. -/
def error? (s : Span) : Option SpanError :=
  match s.reading with
  | .error e => some (s.fail (.malformed e))
  | .ok _ => none

/-- The text that replaces a span. -/
def render (s : Span) (context : Document) : Except SpanError String :=
  match s.reading with
  | .error e => .error (s.fail (.malformed e))
  | .ok e =>
    match e.render context with
    | .error err => .error (s.fail (.unevaluable err))
    | .ok text => .ok text

end Span

namespace Segment

/-- The text of a segment in the template. -/
def text : Segment → String
  | plain t => t
  | span s => s.raw

/-- The segments of pieces of which the first begins at byte `offset`. -/
def ofPieces : Nat → List Piece → List Segment
  | _, [] => []
  | offset, .plain t :: ps =>
    plain (String.ofList t) :: ofPieces (offset + byteLength t) ps
  | offset, .span body :: ps =>
    span (.ofBody body offset) :: ofPieces (offset + byteLength (Piece.span body).text) ps

end Segment

/-- A text cut into plain text and spans. -/
structure Template where
  segments : List Segment

namespace Template

/-- The template of a text. -/
def ofString (source : String) : Template := ⟨Segment.ofPieces 0 (Piece.cut source.toList)⟩

/-- The text of a template. -/
def source (t : Template) : String := String.join (t.segments.map Segment.text)

/-- The spans, whether they hold an expression or not. -/
def spans (t : Template) : List Span :=
  t.segments.filterMap fun
    | .plain _ => none
    | .span s => some s

/-- Whether there is any span. -/
def hasSpans (t : Template) : Bool := ¬ t.spans.isEmpty

/-- The expressions of the spans that hold one. -/
def expressions (t : Template) : List Expression := t.spans.filterMap (·.reading.toOption)

/-- The errors of the spans that hold none. -/
def syntaxErrors (t : Template) : List SpanError := t.spans.filterMap Span.error?

/-- The different names right below a prefix that the spans read, in order; or the errors of all
spans that hold no expression. -/
def names (t : Template) (segments : List String) : Except (List SpanError) (List String) :=
  if t.syntaxErrors = [] then .ok (distinct (t.expressions.flatMap (·.names segments)))
  else .error t.syntaxErrors

end Template

end Interpolation
