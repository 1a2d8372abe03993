import Interpolation.Template.Rendering

/-!
# The text of a template

Cutting a text into plain text and spans loses nothing, so the text of a template is the text that
it was made of. Without spans, rendering has nothing to replace and gives that text in any context.
-/

namespace Interpolation

open Text

theorem Piece.flatMap_text_plain? (cs : List Char) : (Piece.plain? cs).flatMap Piece.text = cs := by
  rw [plain?]
  split
  · rename_i h
    rw [h]
    rfl
  · rw [List.flatMap_singleton, text]

/-- The pieces of a text put together. -/
theorem Piece.flatMap_text_cut (cs : List Char) : (Piece.cut cs).flatMap Piece.text = cs := by
  fun_induction Piece.cut cs with
  | case1 cs _ => exact flatMap_text_plain? cs
  | case2 cs before body rest h ih =>
    rw [List.flatMap_append, flatMap_text_plain?, List.flatMap_cons, ih, (findSpan?_eq h).1,
      Piece.text, List.append_assoc before]

namespace Segment

theorem join_text_ofPieces (ps : List Piece) (offset : Nat) :
    String.join ((ofPieces offset ps).map text) = String.ofList (ps.flatMap Piece.text) := by
  induction ps generalizing offset with
  | nil => rfl
  | cons p ps ih =>
    cases p with
    | plain t =>
      rw [ofPieces, List.map_cons, String.join_cons, ih, List.flatMap_cons, String.ofList_append]
      rfl
    | span body =>
      rw [ofPieces, List.map_cons, String.join_cons, ih, List.flatMap_cons, String.ofList_append]
      rfl

end Segment

namespace Template

/-- **The text of a template** is the text that it was made of. -/
theorem source_ofString (s : String) : (ofString s).source = s := by
  rw [source, ofString, Segment.join_text_ofPieces, Piece.flatMap_text_cut, String.ofList_toList]

variable {t : Template} {context : Document}

theorem mem_spans_iff {s : Span} : s ∈ t.spans ↔ .span s ∈ t.segments := by
  rw [spans]
  constructor
  · intro h
    obtain ⟨x, hx, hs⟩ := List.mem_filterMap.mp h
    cases x with
    | plain text => cases hs
    | span s' =>
      cases hs
      exact hx
  · exact fun h ↦ List.mem_filterMap.mpr ⟨.span s, h, rfl⟩

theorem exists_plain_of_hasSpans_eq_false (h : t.hasSpans = false) {s : Segment}
    (hs : s ∈ t.segments) : ∃ text, s = .plain text := by
  cases s with
  | plain text => exact ⟨text, rfl⟩
  | span s =>
    have hmem : s ∈ t.spans := mem_spans_iff.mpr hs
    have hempty : t.spans = [] := by simpa [hasSpans] using h
    rw [hempty] at hmem
    cases hmem

/-- Without spans there is nothing to replace. -/
theorem render_of_hasSpans_eq_false (h : t.hasSpans = false) : t.render context = .ok t.source := by
  have hplain : ∀ s ∈ t.segments, s.render context SpanError.raw = ⟨s.text, []⟩ := by
    intro s hs
    obtain ⟨text, rfl⟩ := exists_plain_of_hasSpans_eq_false h hs
    rfl
  have htexts : (t.renderLossy context).text = t.source := by
    -- Both are joined from one text for each segment.
    change String.join ((t.segments.map _).map Rendering.text) = String.join (t.segments.map _)
    rw [List.map_map]
    exact congrArg String.join <|
      List.map_congr_left fun s hs ↦ congrArg Rendering.text (hplain s hs)
  have herrors : (t.renderLossy context).errors = [] := by
    rw [renderLossy, renderWith, List.flatMap_map, List.flatMap_eq_nil_iff]
    exact fun s hs ↦ congrArg Rendering.errors (hplain s hs)
  rw [render, if_pos herrors, htexts]

end Template

end Interpolation
