import Interpolation.Proofs.Template.Cutting

/-!
# What a rendering consists of

A rendering goes through the segments of a template once. Plain text is copied, and so is the text
of an expression's value; for a span that fails, the fallback's text is put in its place and its
error is listed. `Renders` is this as a relation between the segments, the text and the errors,
which therefore stay aligned span by span, and `Template.renders_iff` says that there is no other
rendering.

The errors depend on the template and the context but not on the fallback, so that all ways of
rendering a template find the same errors. What is copied is not cut again: the text of a value
stands in the rendering as it is, whatever marks it contains.
-/

namespace Interpolation

open Text

variable {context : Document} {fallback : SpanError → String}

/-- The text of a text is that text. -/
theorem Expression.render_of_resolve_string {e : Expression} {v : String} {path : List String}
    (h : e.resolve context = .ok ⟨.document (.string v), path⟩) : e.render context = .ok v := by
  rw [render, h]
  rfl

/-! ## Failing spans -/

namespace Span

variable {s : Span} {d : Defect} {e : SpanError} {text : String}

/-- Why a span has no text in a context: it holds no expression, or one without a text there. -/
inductive Fails (context : Document) (s : Span) : Defect → Prop where
  | malformed {e : SyntaxError} (h : s.reading = .error e) : Fails context s (.malformed e)
  | unevaluable {e : Expression} {err : EvaluationError} (h : s.reading = .ok e)
      (he : e.render context = .error err) : Fails context s (.unevaluable err)

theorem render_eq_ok_iff :
    s.render context = .ok text ↔ ∃ e, s.reading = .ok e ∧ e.render context = .ok text := by
  rw [render]
  cases s.reading with
  | error err => simp
  | ok e => cases h : e.render context <;> simp [h]

theorem render_eq_error_iff :
    s.render context = .error e ↔ ∃ d, s.Fails context d ∧ e = s.fail d := by
  rw [render]
  constructor
  · intro h
    split at h
    · rename_i hr
      cases h
      exact ⟨_, .malformed hr, rfl⟩
    · rename_i hr
      split at h
      · rename_i he
        cases h
        exact ⟨_, .unevaluable hr he, rfl⟩
      · cases h
  · rintro ⟨d, hd, rfl⟩
    cases hd with
    | malformed hr => simp only [hr]
    | unevaluable hr he => simp only [hr, he]

/-- The error of a span in a context, if it fails there. -/
def failure? (context : Document) (s : Span) : Option SpanError :=
  match s.render context with
  | .ok _ => none
  | .error e => some e

theorem failure?_eq_some_iff :
    s.failure? context = some e ↔ ∃ d, s.Fails context d ∧ e = s.fail d := by
  rw [← render_eq_error_iff, failure?]
  cases s.render context <;> simp

/-- Among the failures are those of the spans that hold no expression. -/
theorem filter_failure? (context : Document) (s : Span) :
    (s.failure? context).filter (·.defect.isMalformed) = s.error? := by
  rw [failure?, render, error?]
  cases s.reading with
  | error err => rfl
  | ok e =>
    simp only
    cases e.render context <;> rfl

end Span

/-! ## Renderings -/

/-- Segments, the text that they are rendered to, and the errors on the way. -/
inductive Renders (context : Document) (fallback : SpanError → String) :
    List Segment → String → List SpanError → Prop where
  | nil : Renders context fallback [] "" []
  | plain {xs : List Segment} {text : String} {errors : List SpanError} (t : String)
      (h : Renders context fallback xs text errors) :
      Renders context fallback (.plain t :: xs) (t ++ text) errors
  | value {xs : List Segment} {text : String} {errors : List SpanError} {s : Span}
      {e : Expression} {v : String} (hs : s.reading = .ok e) (hv : e.render context = .ok v)
      (h : Renders context fallback xs text errors) :
      Renders context fallback (.span s :: xs) (v ++ text) errors
  | failure {xs : List Segment} {text : String} {errors : List SpanError} {s : Span} {d : Defect}
      (hs : s.Fails context d) (h : Renders context fallback xs text errors) :
      Renders context fallback (.span s :: xs) (fallback (s.fail d) ++ text) (s.fail d :: errors)

namespace Template

variable {t : Template} {xs ys : List Segment}

theorem renderWith_cons (x : Segment) (xs : List Segment) (context : Document)
    (fallback : SpanError → String) :
    (mk (x :: xs)).renderWith context fallback =
      ⟨(x.render context fallback).text ++ ((mk xs).renderWith context fallback).text,
        (x.render context fallback).errors ++ ((mk xs).renderWith context fallback).errors⟩ := by
  simp only [renderWith, List.map_cons, String.join_cons, List.flatMap_cons]

theorem text_renderWith_append (xs ys : List Segment) (context : Document)
    (fallback : SpanError → String) :
    ((mk (xs ++ ys)).renderWith context fallback).text =
      ((mk xs).renderWith context fallback).text ++
        ((mk ys).renderWith context fallback).text := by
  simp only [renderWith, List.map_append, String.join_append]

theorem renders_renderWith (xs : List Segment) :
    Renders context fallback xs ((mk xs).renderWith context fallback).text
      ((mk xs).renderWith context fallback).errors := by
  induction xs with
  | nil => exact .nil
  | cons x xs ih =>
    rw [renderWith_cons]
    cases x with
    | plain t => exact .plain t ih
    | span s =>
      rw [Segment.render]
      cases hs : s.render context with
      | ok v =>
        obtain ⟨e, hread, hv⟩ := Span.render_eq_ok_iff.mp hs
        exact .value hread hv ih
      | error err =>
        obtain ⟨d, hd, rfl⟩ := Span.render_eq_error_iff.mp hs
        exact .failure hd ih

theorem renderWith_of_renders {text : String} {errors : List SpanError}
    (h : Renders context fallback xs text errors) :
    (mk xs).renderWith context fallback = ⟨text, errors⟩ := by
  induction h with
  | nil => rfl
  | plain t h ih =>
    rw [renderWith_cons, ih]
    rfl
  | value hs hv h ih =>
    rw [renderWith_cons, ih, Segment.render, Span.render_eq_ok_iff.mpr ⟨_, hs, hv⟩]
    rfl
  | failure hs h ih =>
    rw [renderWith_cons, ih, Segment.render, Span.render_eq_error_iff.mpr ⟨_, hs, rfl⟩]
    rfl

/-- **There is one rendering.** -/
theorem renders_iff {text : String} {errors : List SpanError} :
    Renders context fallback t.segments text errors ↔
      text = (t.renderWith context fallback).text ∧
        errors = (t.renderWith context fallback).errors := by
  constructor
  · intro h
    have heq : t.renderWith context fallback = ⟨text, errors⟩ := renderWith_of_renders h
    rw [heq]
    exact ⟨rfl, rfl⟩
  · rintro ⟨rfl, rfl⟩
    exact renders_renderWith t.segments

/-! ## Errors -/

/-- The errors of a rendering are those of the spans, whatever the fallback. -/
theorem errors_renderWith (t : Template) (context : Document) (fallback : SpanError → String) :
    (t.renderWith context fallback).errors = t.spans.filterMap (Span.failure? context) := by
  obtain ⟨xs⟩ := t
  induction xs with
  | nil => rfl
  | cons x xs ih =>
    rw [renderWith_cons, ih]
    cases x with
    | plain t => rfl
    | span s =>
      simp only [spans, List.filterMap_cons, Span.failure?, Segment.render]
      cases s.render context <;> rfl

theorem errors_renderLossy (t : Template) (context : Document) :
    (t.renderLossy context).errors = t.spans.filterMap (Span.failure? context) :=
  t.errors_renderWith context SpanError.raw

/-- The errors that show without a context are among those of any context. -/
theorem syntaxErrors_eq_filter (t : Template) (context : Document) :
    t.syntaxErrors =
      (t.spans.filterMap (Span.failure? context)).filter (·.defect.isMalformed) := by
  rw [syntaxErrors, List.filter_filterMap]
  exact congrArg (List.filterMap · t.spans) (funext fun s ↦ (s.filter_failure? context).symm)

/-- Where every span fails, the texts of the spans are kept. -/
theorem text_renderWith_of_fails (h : ∀ s, .span s ∈ xs → ∃ d, s.Fails context d) :
    ((mk xs).renderWith context SpanError.raw).text = Segment.joined xs := by
  induction xs with
  | nil => rfl
  | cons x xs ih =>
    rw [renderWith_cons, ih fun s hs ↦ h s (List.mem_cons_of_mem x hs), Segment.joined_cons]
    cases x with
    | plain t => rfl
    | span s =>
      obtain ⟨d, hd⟩ := h s List.mem_cons_self
      rw [Segment.render, Span.render_eq_error_iff.mpr ⟨d, hd, rfl⟩]
      rfl

/-! ## The order of the errors -/

theorem le_offset_of_mem_ofPieces {ps : List Piece} {offset : Nat} {s : Span}
    (h : .span s ∈ Segment.ofPieces offset ps) : offset ≤ s.offset := by
  induction ps generalizing offset with
  | nil => cases h
  | cons p ps ih =>
    rw [Segment.ofPieces_cons] at h
    rcases List.mem_cons.mp h with h | h
    · cases p with
      | plain t => cases h
      | span body =>
        cases h
        exact Nat.le_refl _
    · exact Nat.le_trans (Nat.le_add_right _ _) (ih h)

theorem pairwise_offset_spans (ps : List Piece) (offset : Nat) :
    (mk (Segment.ofPieces offset ps)).spans.Pairwise fun s s' ↦ s.offset < s'.offset := by
  induction ps generalizing offset with
  | nil => exact .nil
  | cons p ps ih =>
    rw [Segment.ofPieces_cons]
    cases p with
    | plain t => exact ih _
    | span body =>
      refine List.pairwise_cons.mpr ⟨fun s hs ↦ ?_, ih _⟩
      have hle := le_offset_of_mem_ofPieces (mem_spans_iff.mp hs)
      -- The marks of a span take some bytes.
      have hpos : 0 < byteLength (Piece.span body).text := by
        rw [Piece.text, byteLength_append, byteLength_append]
        exact Nat.lt_of_lt_of_le (by decide) (Nat.le_add_left _ _)
      exact Nat.lt_of_lt_of_le (Nat.lt_add_of_pos_right hpos) hle

/-- The errors of a text are listed from left to right. -/
theorem pairwise_offset_errors (source : String) (context : Document)
    (fallback : SpanError → String) :
    ((ofString source).renderWith context fallback).errors.Pairwise
      fun e e' ↦ e.offset < e'.offset := by
  rw [errors_renderWith]
  refine (pairwise_offset_spans _ _).filterMap _ fun s s' hlt e he e' he' ↦ ?_
  obtain ⟨d, -, rfl⟩ := Span.failure?_eq_some_iff.mp he
  obtain ⟨d', -, rfl⟩ := Span.failure?_eq_some_iff.mp he'
  exact hlt

/-! ## All ways of rendering -/

theorem render_eq_ok_iff {text : String} : t.render context = .ok text ↔
    (t.renderLossy context).errors = [] ∧ (t.renderLossy context).text = text := by
  rw [render]
  split
  · rename_i h
    simp [h]
  · rename_i h
    simp [h]

theorem render_eq_error_iff {errors : List SpanError} : t.render context = .error errors ↔
    errors ≠ [] ∧ (t.renderLossy context).errors = errors := by
  rw [render]
  constructor
  · intro h
    split at h
    · cases h
    · rename_i hne
      cases h
      exact ⟨hne, rfl⟩
  · rintro ⟨hne, rfl⟩
    rw [if_neg hne]

/-- **All ways of rendering a text agree, and what is put in is not cut again.** With a fallback,
the text of a rendering is made of the plain text, the texts of the values and the texts that the
fallback gives for the errors, span by span. There is one error for each span that fails, from left
to right. The errors do not depend on the fallback, and those of spans without an expression are
among them in any context. Without a fallback, rendering succeeds if there is no error, with the
text of the rendering that leaves failing spans as they are, and fails with the errors of that
rendering otherwise. If all spans fail, that rendering is the text itself. Where the value of an
expression is a text, this stands in the rendering as it is, between the renderings of what is
before and behind the span. -/
theorem renderings_agree (source : String) (context : Document) (fallback : SpanError → String) :
    let t := ofString source
    let r := t.renderWith context fallback
    let lossy := t.renderLossy context
    (∀ text errors, Renders context fallback t.segments text errors ↔
        text = r.text ∧ errors = r.errors) ∧
      r.errors.Pairwise (fun e e' ↦ e.offset < e'.offset) ∧
      r.errors = lossy.errors ∧
      t.syntaxErrors.Sublist r.errors ∧
      (∀ text, t.render context = .ok text ↔ lossy.errors = [] ∧ lossy.text = text) ∧
      (∀ errors, t.render context = .error errors ↔ errors ≠ [] ∧ lossy.errors = errors) ∧
      substitute source context = t.render context ∧
      ((∀ s ∈ t.spans, ∃ d, s.Fails context d) → lossy.text = source) ∧
      ∀ pre s post e v path, t.segments = pre ++ .span s :: post → s.reading = .ok e →
        e.resolve context = .ok ⟨.document (.string v), path⟩ →
          r.text = ((mk pre).renderWith context fallback).text ++ v ++
            ((mk post).renderWith context fallback).text := by
  intro t r lossy
  refine ⟨fun text errors ↦ renders_iff, pairwise_offset_errors source context fallback, ?_, ?_,
    fun text ↦ render_eq_ok_iff, fun errors ↦ render_eq_error_iff, rfl, fun h ↦ ?_, ?_⟩
  · exact (t.errors_renderWith context fallback).trans (t.errors_renderLossy context).symm
  · rw [t.syntaxErrors_eq_filter context, ← t.errors_renderWith context fallback]
    exact List.filter_sublist
  · have hjoined : lossy.text = Segment.joined t.segments :=
      text_renderWith_of_fails fun s hs ↦ h s (mem_spans_iff.mpr hs)
    exact hjoined.trans (source_ofString source)
  · intro pre s post e v path hsegments hread hresolve
    have hspan : s.render context = .ok v :=
      Span.render_eq_ok_iff.mpr ⟨e, hread, Expression.render_of_resolve_string hresolve⟩
    change ((mk t.segments).renderWith context fallback).text = _
    rw [hsegments, text_renderWith_append, renderWith_cons, Segment.render, hspan,
      String.append_assoc]

set_option maxRecDepth 4000 in
/-- The marks in a value are text. -/
example : substitute "${{x}}" (.object [("x", .string "${{y}}"), ("y", .string "1")]) =
    .ok "${{y}}" := by
  cbv

end Template

end Interpolation
