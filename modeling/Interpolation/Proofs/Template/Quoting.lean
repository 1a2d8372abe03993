import Interpolation.Proofs.Expression.Pairs
import Interpolation.Proofs.Expression.Writing
import Interpolation.Proofs.Template.Malformed
import Interpolation.Proofs.Template.Rendering

/-!
# Quoted texts are read back

A text is quoted by writing each of its quotes twice between two quotes, and scanning the quoted
form gives the text back, wherever it stands.

A quoted text is an expression, and its value in any context is the text. A span with it in its body
is therefore rendered to the text, unless a closing brace in the text ends the span.
-/

namespace Interpolation

open Text

/-! ## Quoted texts as expressions -/

theorem mem_quote {x : Char} {s : List Char} (h : x ∈ quote s) : x = '\'' ∨ x ∈ s := by
  rw [quote, doubleQuotes_eq_replaceChar, replaceChar] at h
  rcases List.mem_cons.mp h with rfl | h
  · exact .inl rfl
  rcases List.mem_append.mp h with h | h
  · obtain ⟨c, hc, hx⟩ := List.mem_flatMap.mp h
    split at hx
    · exact .inl (by simpa using hx)
    · rw [List.mem_singleton.mp hx]
      exact .inr hc
  · exact .inl (List.mem_singleton.mp h)

theorem lexes_quote (s : String) : Lexes (quote s.toList) [.quoted s] [] := by
  have hnone : ∀ x ∈ ([] : List Char), isBlank x := fun x hx ↦ absurd hx List.not_mem_nil
  have hends : (Token.quoted s).EndsBefore [] := by simp [Token.EndsBefore]
  have hlexes : Lexes ([] ++ ((Token.quoted s).text ++ ([] ++ []))) [.quoted s] [] :=
    .cons hnone trivial hends (.nil hnone)
  simpa [Token.text] using hlexes

theorem Tree.read_quote (s : String) (offset : Nat) :
    read (quote s.toList) offset = .ok (.quoted s) :=
  read_of_lexes (t := .quoted s) (lexes_quote s) trivial (Nat.zero_le _) offset

namespace Template

variable {context : Document} {body : List Char} {s : String}

/-- A text that is one span. -/
theorem segments_of_span (h : '}' ∉ body) :
    (ofString (String.ofList (Piece.opening ++ body ++ Piece.closing))).segments =
      [.span (.ofBody body 0)] := by
  have hopen := Piece.openSpan?_of_notMem h []
  have hfind : Piece.findSpan? (Piece.opening ++ body ++ Piece.closing) = some ([], body, []) := by
    rw [List.append_nil] at hopen
    rw [Piece.opening, List.cons_append, List.cons_append] at hopen ⊢
    rw [Piece.findSpan?, hopen]
  have hnil : Piece.cut [] = [] := Piece.cut_of_findSpan?_eq_none rfl
  rw [ofString, String.toList_ofList, Piece.cut_of_findSpan?_eq_some hfind, hnil]
  rfl

theorem render_ofBody_quote (s : String) (offset : Nat) (context : Document) :
    (Span.ofBody (quote s.toList) offset).render context = .ok s := by
  rw [Span.render_eq_ok_iff]
  refine ⟨⟨.quoted s, String.ofList (quote s.toList)⟩, ?_, rfl⟩
  rw [Span.ofBody, Expression.ofText, Tree.read_quote]

theorem substitute_span_quote (h : '}' ∉ s.toList) (context : Document) :
    substitute (String.ofList (Piece.opening ++ quote s.toList ++ Piece.closing)) context =
      .ok s := by
  have hbody : '}' ∉ quote s.toList := by
    intro hmem
    rcases mem_quote hmem with hquote | hs
    · exact absurd hquote (by decide)
    · exact h hs
  have hsegments := segments_of_span hbody
  rw [substitute, render]
  simp only [renderLossy, renderWith, hsegments, List.map_cons, List.map_nil, Segment.render,
    render_ofBody_quote]
  simp

/-- **Quoting and scanning are inverse.** The quoted form of a text is the text with every quote
doubled, between two quotes. Where it stands at the cursor and no further quote follows, the scan
takes it up and gives the text; and whenever the scan gives a text, the part of the source that it
took up is the quoted form of this text. A span that holds a quoted text is rendered to the text in
every context, if there is no closing brace in it. -/
theorem quoting_inverts_scanning :
    (∀ s, quote s = '\'' :: (replaceChar '\'' ['\'', '\''] s ++ ['\''])) ∧
    (∀ (c : Cursor) (s after : List Char), c.rest = quote s ++ after →
      (∀ x ∈ after.head?, x ≠ '\'') →
        c.quoted = (.ok (some ⟨c, .quoted (String.ofList s)⟩), c.past (quote s) after)) ∧
    (∀ (c d : Cursor) (l : Lexeme), c.quoted = (.ok (some l), d) →
      ∃ v : String, l = ⟨c, .quoted v⟩ ∧ c.rest = quote v.toList ++ d.rest ∧
        ∀ before, c.position = byteLength before →
          slice? c.position d.position (before ++ c.rest) = some (quote v.toList)) ∧
    ∀ s : String, '}' ∉ s.toList → ∀ context : Document,
      substitute (String.ofList (Piece.opening ++ quote s.toList ++ Piece.closing)) context =
        .ok s := by
  refine ⟨fun s ↦ by rw [quote, doubleQuotes_eq_replaceChar], ?_, ?_, ?_⟩
  · intro c s after hrest hafter
    rw [Cursor.quoted_eq_some_iff_closes]
    refine ⟨doubleQuotes s ++ '\'' :: after, doubleQuotes s, ?_,
      ⟨rfl, paired_doubleQuotes s, hafter⟩, by rw [replacePair_doubleQuotes], rfl⟩
    rw [hrest, quote, List.cons_append, List.append_assoc]
    rfl
  · intro c d l h
    obtain ⟨cs, inside, hrest, hcloses, rfl, hpast⟩ := Cursor.quoted_eq_some_iff_closes.mp h
    obtain ⟨s, rfl⟩ := exists_doubleQuotes hcloses.paired
    have hsource : c.rest = quote s ++ d.rest := by
      rw [hrest, hcloses.eq, quote, List.cons_append, List.append_assoc]
      rfl
    refine ⟨String.ofList s, by rw [replacePair_doubleQuotes], ?_, fun before hbefore ↦ ?_⟩
    · rw [String.toList_ofList, hsource]
    · have hposition : d.position = byteLength before + byteLength (quote s) := by
        rw [← hpast, ← hbefore]
        rfl
      rw [hbefore, hposition, hsource, slice?_append, String.toList_ofList]
  · exact fun s hs context ↦ substitute_span_quote hs context

end Template

end Interpolation
