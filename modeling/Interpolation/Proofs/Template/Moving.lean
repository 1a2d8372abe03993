import Mathlib
import Interpolation.Proofs.Expression.Moving
import Interpolation.Proofs.Template.Rendering

/-!
# Text in front of a template

A span begins with a dollar sign, so text without one can be put in front of a template without
touching its spans: the first piece of plain text becomes longer, and everything behind it moves by
the bytes of the new text. The expressions stay the same, and the errors point to the same text.

The one case to be careful about is plain text. If the template begins with a span, the new text is
a segment of its own, otherwise it is joined to the one that was first. Hence the statement about
segments, from which those about spans and renderings follow, leaves the first piece of plain text
open.
-/

namespace Interpolation

open Text

/-! ## What is moved -/

namespace Defect

/-- The defect if its text stood `k` bytes further on. An evaluation does not see positions. -/
def moved (k : Nat) : Defect → Defect
  | malformed e => malformed (e.moved k)
  | unevaluable e => unevaluable e

end Defect

/-- The error of a span if it stood `k` bytes further on. -/
def SpanError.moved (k : Nat) (e : SpanError) : SpanError :=
  ⟨e.raw, e.offset + k, e.defect.moved k⟩

namespace Span

/-- The span if it stood `k` bytes further on. -/
def moved (k : Nat) (s : Span) : Span :=
  ⟨s.raw, s.offset + k, s.reading.mapError (SyntaxError.moved k)⟩

theorem ofBody_add (body : List Char) (offset k : Nat) :
    ofBody body (offset + k) = (ofBody body offset).moved k := by
  rw [ofBody, Nat.add_right_comm, Expression.ofText_add]
  rfl

theorem render_moved (k : Nat) (s : Span) (context : Document) :
    (s.moved k).render context = (s.render context).mapError (SpanError.moved k) := by
  rw [render, render, moved]
  rcases s.reading with e | e
  · rfl
  · simp only [Except.mapError]
    rcases e.render context with err | text
    · rfl
    · rfl

end Span

namespace Segment

/-- The segment if it stood `k` bytes further on. -/
def moved (k : Nat) : Segment → Segment
  | plain t => plain t
  | span s => span (s.moved k)

theorem ofPieces_add (offset k : Nat) (ps : List Piece) :
    ofPieces (offset + k) ps = (ofPieces offset ps).map (moved k) := by
  induction ps generalizing offset with
  | nil => rfl
  | cons p ps ih =>
    have hhead : ofPiece (offset + k) p = (ofPiece offset p).moved k := by
      rcases p with t | body
      · rfl
      · exact congrArg span (Span.ofBody_add body offset k)
    rw [ofPieces_cons, ofPieces_cons, hhead, Nat.add_right_comm, ih, List.map_cons]

/-- A segment that is moved has the same text, and its error is moved. -/
theorem render_moved (k : Nat) (context : Document) (x : Segment) :
    (x.moved k).render context SpanError.raw =
      ⟨(x.render context SpanError.raw).text,
        (x.render context SpanError.raw).errors.map (SpanError.moved k)⟩ := by
  rcases x with t | s
  · rfl
  · rw [moved, render, render, Span.render_moved]
    rcases s.render context with e | text
    · rfl
    · rfl

end Segment

/-! ## Cutting behind other text -/

namespace Piece

variable {p cs before body rest : List Char}

theorem openSpan?_of_ne {c : Char} (h : c ≠ '$') (cs : List Char) : openSpan? (c :: cs) = none := by
  rw [openSpan?]
  intro tail heq
  exact h (List.cons.inj heq).1

/-- No span begins in text without a dollar sign. -/
theorem findSpan?_append (h : '$' ∉ p) (cs : List Char) :
    findSpan? (p ++ cs) =
      (findSpan? cs).map fun (before, body, rest) ↦ (p ++ before, body, rest) := by
  induction p with
  | nil => exact Option.map_id'.symm
  | cons c p ih =>
    rw [List.mem_cons, not_or] at h
    rw [List.cons_append, findSpan?, openSpan?_of_ne (Ne.symm h.1), ih h.2, Option.map_map]
    rfl

/-- **Behind text without a dollar sign**, a text has the same pieces but for the plain text that it
begins with. -/
theorem exists_cut_append (h : '$' ∉ p) (cs : List Char) :
    ∃ before ps, cut cs = plain? before ++ ps ∧ cut (p ++ cs) = plain? (p ++ before) ++ ps := by
  rcases hfind : findSpan? cs with _ | ⟨before, body, rest⟩
  · have happend : findSpan? (p ++ cs) = none := by rw [findSpan?_append h, hfind, Option.map_none]
    refine ⟨cs, [], ?_, ?_⟩
    · rw [List.append_nil, cut_of_findSpan?_eq_none hfind]
    · rw [List.append_nil, cut_of_findSpan?_eq_none happend]
  · have happend : findSpan? (p ++ cs) = some (p ++ before, body, rest) := by
      rw [findSpan?_append h, hfind, Option.map_some]
    exact ⟨before, span body :: cut rest, cut_of_findSpan?_eq_some hfind,
      cut_of_findSpan?_eq_some happend⟩

end Piece

namespace Template

variable {p : String}

/-- The same for segments, which are moved. -/
theorem exists_ofString_append (h : '$' ∉ p.toList) (source : String) :
    ∃ before xs,
      ofString source = ⟨Segment.ofPieces 0 (Piece.plain? before) ++ xs⟩ ∧
      ofString (p ++ source) = ⟨Segment.ofPieces 0 (Piece.plain? (p.toList ++ before)) ++
        xs.map (Segment.moved p.utf8ByteSize)⟩ := by
  obtain ⟨before, ps, hcut, happend⟩ := Piece.exists_cut_append h source.toList
  refine ⟨before, Segment.ofPieces (0 + byteLength before) ps, ?_, ?_⟩
  · rw [ofString, hcut, Segment.ofPieces_append, Piece.flatMap_text_plain?]
  · rw [ofString, String.toList_append, happend, Segment.ofPieces_append,
      Piece.flatMap_text_plain?, ← Segment.ofPieces_add, byteLength_append, byteLength_toList,
      Nat.add_assoc, Nat.add_comm p.utf8ByteSize]

/-! ## Spans and renderings -/

theorem spans_moved (k : Nat) (xs : List Segment) :
    (mk (xs.map (Segment.moved k))).spans = (mk xs).spans.map (Span.moved k) := by
  rw [spans, spans, List.filterMap_map, List.map_filterMap]
  refine congrArg (List.filterMap · xs) (funext fun x ↦ ?_)
  rcases x with t | s
  · rfl
  · rfl

theorem renderLossy_moved (k : Nat) (xs : List Segment) (context : Document) :
    (mk (xs.map (Segment.moved k))).renderLossy context =
      ⟨((mk xs).renderLossy context).text,
        ((mk xs).renderLossy context).errors.map (SpanError.moved k)⟩ := by
  simp only [renderLossy]
  induction xs with
  | nil => rfl
  | cons x xs ih =>
    rw [List.map_cons, renderWith_cons, renderWith_cons, ih, Segment.render_moved, List.map_append]

theorem spans_plain?_append (t : List Char) (xs : List Segment) :
    (mk (Segment.ofPieces 0 (Piece.plain? t) ++ xs)).spans = (mk xs).spans := by
  rw [Piece.plain?]
  split
  · rfl
  · rfl

theorem renderLossy_plain?_append (t : List Char) (xs : List Segment) (context : Document) :
    (mk (Segment.ofPieces 0 (Piece.plain? t) ++ xs)).renderLossy context =
      ⟨String.ofList t ++ ((mk xs).renderLossy context).text,
        ((mk xs).renderLossy context).errors⟩ := by
  rw [Piece.plain?]
  split
  · rename_i h
    rw [h, String.ofList_nil, String.empty_append]
    rfl
  · exact renderWith_cons _ xs context SpanError.raw

/-- **Nothing but positions depends on where a text stands.** An expression that stands `k` bytes
further on has the same tree, or the same error with its positions moved by `k`. If text without a
dollar sign is put in front of a template, the spans are the same ones, moved by the bytes of that
text. In any context, the rendering that leaves failing spans as they are is preceded by the text,
and its errors are the same ones, moved as well. -/
theorem reading_moves_with_text :
    (∀ text k, Tree.read text k = (Tree.read text 0).mapError (SyntaxError.moved k)) ∧
      ∀ p source, '$' ∉ p.toList →
        (ofString (p ++ source)).spans =
            (ofString source).spans.map (Span.moved p.utf8ByteSize) ∧
          ∀ context, (ofString (p ++ source)).renderLossy context =
            ⟨p ++ ((ofString source).renderLossy context).text,
              ((ofString source).renderLossy context).errors.map
                (SpanError.moved p.utf8ByteSize)⟩ := by
  refine ⟨fun text k ↦ ?_, fun p source h ↦ ?_⟩
  · rw [← Tree.read_add, Nat.zero_add]
  obtain ⟨before, xs, hsource, happend⟩ := exists_ofString_append h source
  rw [hsource, happend]
  refine ⟨?_, fun context ↦ ?_⟩
  · rw [spans_plain?_append, spans_plain?_append, spans_moved]
  · rw [renderLossy_plain?_append, renderLossy_plain?_append, renderLossy_moved,
      String.ofList_append, String.ofList_toList, String.append_assoc]

set_option maxRecDepth 4000 in
/-- Behind `é `, which has three bytes, an error stands three bytes further on. -/
theorem reading_moves_with_text_accented :
    '$' ∉ "é ".toList ∧
      ((ofString ("é " ++ "${{ a || }}")).renderLossy .null).errors =
        ((ofString "${{ a || }}").renderLossy .null).errors.map (SpanError.moved 3) ∧
      ((ofString "${{ a || }}").renderLossy .null).errors =
        [⟨"${{ a || }}", 0, .malformed (.unexpectedToken "||" 6)⟩] := by
  have h : '$' ∉ "é ".toList := by decide
  refine ⟨h, ?_, by cbv⟩
  rw [(reading_moves_with_text.2 "é " "${{ a || }}" h).2 .null]
  rfl

end Template

end Interpolation
