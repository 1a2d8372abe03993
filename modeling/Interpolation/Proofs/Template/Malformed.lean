import Interpolation.Proofs.Expression.Completion
import Interpolation.Proofs.Template.Cutting
import Interpolation.Proofs.Text.Utf8

/-!
# Where the errors of a template point

The body of a span is read as a text of its own that stands at a byte of the template. An error in
it therefore points into the template: the text that it names stands there, within the body. Only a
body of blanks has nothing that could be named.
-/

namespace Interpolation

open Text

namespace Template

variable {source : String} {s : Span} {e : SyntaxError}

/-- The body of a span is a part of the template. -/
theorem exists_body_of_mem_segments (h : .span s ∈ (ofString source).segments) :
    ∃ before body after, s = .ofBody body s.offset ∧
      source.toList = before ++ (body ++ after) ∧ byteLength before = s.offset + 3 := by
  obtain ⟨pre, post, hsegments⟩ := List.append_of_mem h
  obtain ⟨-, p, -, -, -, hs, -, -⟩ := Segment.ofPieces_eq_append_cons hsegments
  cases p with
  | plain t => cases hs
  | span body =>
    have hsource : source = Segment.joined pre ++ (s.raw ++ Segment.joined post) := by
      rw [← source_ofString source]
      change Segment.joined (ofString source).segments = _
      rw [hsegments, Segment.joined_append, Segment.joined_cons]
      rfl
    cases hs
    refine ⟨(Segment.joined pre).toList ++ Piece.opening, body,
      Piece.closing ++ (Segment.joined post).toList, rfl, ?_, ?_⟩
    · rw [hsource]
      simp [Span.ofBody, Piece.text]
    · rw [byteLength_append, byteLength_toList, Nat.zero_add]
      rfl

/-- An error that stands in the body points at the text that it names. -/
theorem points_of_standsBetween {before body after inside outside : List Char} {offset : Nat}
    (hbody : body = inside ++ outside) (h : e.StandsBetween offset inside outside)
    (hbefore : byteLength before = offset) {token : String} {position : Nat}
    (he : e = .unexpectedToken token position) :
    token ≠ "" ∧ offset ≤ position ∧ position < offset + byteLength body ∧
      position + token.utf8ByteSize ≤ offset + byteLength body ∧
      ∃ u v, before ++ (body ++ after) = u ++ (token.toList ++ v) ∧ byteLength u = position := by
  obtain ⟨tok, hne, ⟨rest, hrest⟩, hpoint⟩ := h
  rw [he] at hpoint
  cases hpoint
  have hlength : byteLength body = byteLength inside + (byteLength tok + byteLength rest) := by
    rw [hbody, ← hrest, byteLength_append, byteLength_append]
  have hpos : 0 < byteLength tok := byteLength_pos hne
  refine ⟨?_, by omega, by omega, ?_, before ++ inside, rest ++ after, ?_, ?_⟩
  · intro hempty
    rw [← String.toList_inj, String.toList_ofList] at hempty
    exact hne hempty
  · rw [utf8ByteSize_ofList]
    omega
  · rw [hbody, ← hrest, String.toList_ofList]
    simp only [List.append_assoc]
  · rw [byteLength_append, hbefore]

/-- **Every error of a template points at the text that it names.** The body of a span that holds no
expression is a part of the template, read where it stands. An unexpected token is not empty, lies
within the body, and is the text of the template at its position. An expression is missing just in
the bodies of blanks, and then it is missing from their start on. -/
theorem malformed_span_points (hs : .span s ∈ (ofString source).segments)
    (he : s.reading = .error e) :
    ∃ body, s.raw = String.ofList (Piece.opening ++ body ++ Piece.closing) ∧
      Expression.ofSpan source (s.offset + 3) (s.offset + 3 + byteLength body) = .error e ∧
      (∀ start stop, e ≠ .invalidSpan start stop) ∧
      (∀ token position, e = .unexpectedToken token position →
        token ≠ "" ∧ s.offset + 3 ≤ position ∧ position < s.offset + 3 + byteLength body ∧
          position + token.utf8ByteSize ≤ s.offset + 3 + byteLength body ∧
          ∃ u v, source.toList = u ++ (token.toList ++ v) ∧ byteLength u = position) ∧
      ((∃ position, e = .expressionExpected position) ↔ ∀ c ∈ body, isBlank c) ∧
      ∀ position, e = .expressionExpected position → position = s.offset + 3 := by
  obtain ⟨before, body, after, hbody, hsource, hbefore⟩ := exists_body_of_mem_segments hs
  have hread : Tree.read body (s.offset + 3) = .error e := by
    rw [hbody] at he
    simp only [Span.ofBody, Expression.ofText] at he
    split at he
    · rename_i hr
      cases he
      exact hr
    · cases he
  have hraw : s.raw = String.ofList (Piece.opening ++ body ++ Piece.closing) := by
    rw [hbody]
    rfl
  refine ⟨body, hraw, ?_, ?_, ?_, ⟨?_, ?_⟩, ?_⟩
  · rw [Expression.ofSpan, hsource, ← hbefore, slice?_append]
    simp only [Expression.ofText, hbefore, hread]
  · rintro start stop rfl
    rcases Tree.read_eq_error hread with ⟨hne, -⟩ | ⟨inside, outside, -, ⟨tok, -, -, hne⟩, -⟩
    · cases hne
    · cases hne
  · intro token position heq
    rcases Tree.read_eq_error hread with ⟨hne, -⟩ | ⟨inside, outside, hsplit, hstands, -⟩
    · rw [heq] at hne
      cases hne
    · rw [hsource]
      exact points_of_standsBetween hsplit hstands hbefore heq
  · rintro ⟨position, rfl⟩
    exact (Tree.read_eq_expressionExpected_iff.mp hread).2
  · intro hblank
    have hexpected : Tree.read body (s.offset + 3) = .error (.expressionExpected (s.offset + 3)) :=
      Tree.read_eq_expressionExpected_iff.mpr ⟨rfl, hblank⟩
    rw [hread] at hexpected
    exact ⟨_, Except.error.inj hexpected⟩
  · rintro position rfl
    exact (Tree.read_eq_expressionExpected_iff.mp hread).1

set_option maxRecDepth 4000 in
/-- The dot without a right-hand side stands at byte 8, behind a letter of two bytes. -/
theorem malformed_span_points_behind_letter :
    .span (.ofBody " a. ".toList 3) ∈ (ofString "é ${{ a. }}").segments ∧
      (Span.ofBody " a. ".toList 3).reading = .error (.unexpectedToken "." 8) ∧
      ∃ u v, "é ${{ a. }}".toList = u ++ (".".toList ++ v) ∧ byteLength u = 8 := by
  have hmem : .span (.ofBody " a. ".toList 3) ∈ (ofString "é ${{ a. }}").segments := by
    have hsegments : (ofString "é ${{ a. }}").segments =
        [.plain "é ", .span (.ofBody " a. ".toList 3)] := by
      cbv
    rw [hsegments]
    exact List.mem_cons_of_mem _ List.mem_cons_self
  have hreading : (Span.ofBody " a. ".toList 3).reading = .error (.unexpectedToken "." 8) := by
    cbv
  obtain ⟨body, -, -, -, hpoints, -⟩ := malformed_span_points hmem hreading
  exact ⟨hmem, hreading, (hpoints "." 8 rfl).2.2.2.2⟩

end Template

end Interpolation
