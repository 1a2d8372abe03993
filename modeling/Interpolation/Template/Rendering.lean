import Interpolation.Template.Basic

/-!
# Rendering templates

Each span is replaced by the text of its expression's value, once: a value that looks like a span
is copied as it is. For a span without such a text a fallback decides, and the failure is
recorded. Rendering goes through all spans in any case, so that the errors of a template come
together.
-/

namespace Interpolation

/-- A rendered text and the failures on the way, in the order of the spans. -/
structure Rendering where
  text : String
  errors : List SpanError
  deriving DecidableEq, Repr

namespace Segment

/-- The rendering of one segment. -/
def render (context : Document) (fallback : SpanError → String) : Segment → Rendering
  | plain t => ⟨t, []⟩
  | span s =>
    match s.render context with
    | .ok text => ⟨text, []⟩
    | .error e => ⟨fallback e, [e]⟩

end Segment

/-- The errors of several spans in one line. -/
def SpanError.joined (errors : List SpanError) : String :=
  "; ".intercalate (errors.map SpanError.message)

namespace Template

/-- Renders a template with a fallback for the spans that fail. -/
def renderWith (t : Template) (context : Document) (fallback : SpanError → String) : Rendering :=
  let parts := t.segments.map (Segment.render context fallback)
  ⟨String.join (parts.map Rendering.text), parts.flatMap Rendering.errors⟩

/-- Renders a template, leaving the spans that fail as they are. -/
def renderLossy (t : Template) (context : Document) : Rendering :=
  t.renderWith context SpanError.raw

/-- Renders a template, or gives the errors of all spans that fail. -/
def render (t : Template) (context : Document) : Except (List SpanError) String :=
  let r := t.renderLossy context
  if r.errors = [] then .ok r.text else .error r.errors

/-- Renders a text. -/
def substitute (source : String) (context : Document) : Except (List SpanError) String :=
  (ofString source).render context

end Template

end Interpolation
