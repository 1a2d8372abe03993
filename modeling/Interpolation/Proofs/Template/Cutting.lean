import Interpolation.Proofs.Template.Source

/-!
# Where a template is cut

The spans of a template are the leftmost ones. From the end of each span on, and from the start of
the text, the next span begins at the first place where one can begin: at an opening mark of which
the first closing brace behind it is followed by another. What lies between two spans is one piece
of plain text, unless nothing lies there.

The facts are shown for pieces, which have no positions, by the recursion of `Piece.cut`. They carry
over to segments because `Segment.ofPieces` goes through the pieces one by one and only counts the
bytes on the way.
-/

namespace Interpolation

open Text

/-! ## Strings and lists -/

theorem Text.utf8ByteSize_ofList (cs : List Char) :
    (String.ofList cs).utf8ByteSize = byteLength cs := by
  induction cs with
  | nil => rfl
  | cons c cs ih =>
    rw [← List.singleton_append, String.ofList_append, String.utf8ByteSize_append, ih]
    simp

theorem Text.byteLength_toList (s : String) : byteLength s.toList = s.utf8ByteSize := by
  rw [← utf8ByteSize_ofList, String.ofList_toList]

/-- A list is split behind or before one of its members. -/
theorem Text.append_cons_eq_append {α : Type} {x : α} {xs ys pre post : List α}
    (h : xs ++ x :: ys = pre ++ post) : (∃ mid, pre = xs ++ x :: mid ∧ ys = mid ++ post) ∨
      ∃ mid, xs = pre ++ mid ∧ post = mid ++ x :: ys := by
  rcases List.append_eq_append_iff.mp h with ⟨mid, rfl, hmid⟩ | ⟨mid, hxs, hpost⟩
  · rcases List.cons_eq_append_iff.mp hmid with ⟨rfl, hpost⟩ | ⟨mid, rfl, hys⟩
    · exact .inr ⟨[], by simp, hpost⟩
    · exact .inl ⟨mid, rfl, hys⟩
  · exact .inr ⟨mid, hxs, hpost⟩

namespace Piece

variable {cs before body rest t : List Char} {pre post : List Piece}

/-! ## Places where a span begins -/

/-- A span begins the text: behind an opening mark, the first closing brace is followed by
another. -/
def Opens (cs : List Char) : Prop :=
  ∃ body rest, cs = opening ++ body ++ closing ++ rest ∧ '}' ∉ body

theorem Opens.append (h : Opens cs) (more : List Char) : Opens (cs ++ more) := by
  obtain ⟨body, rest, rfl, hbody⟩ := h
  exact ⟨body, rest ++ more, by rw [List.append_assoc], hbody⟩

theorem not_opens_nil : ¬ Opens [] := by
  rintro ⟨body, rest, h, -⟩
  cases h

theorem openSpan?_of_notMem (hbody : '}' ∉ body) (rest : List Char) :
    openSpan? (opening ++ body ++ closing ++ rest) = some (body, rest) := by
  have hne : ∀ c ∈ body, (decide (c ≠ '}')) = true := by
    intro c hc
    have : c ≠ '}' := fun h ↦ hbody (h ▸ hc)
    exact decide_eq_true this
  have hdrop : (body ++ closing ++ rest).dropWhile (· ≠ '}') = '}' :: '}' :: rest := by
    rw [List.append_assoc, List.dropWhile_append_of_pos hne]
    rfl
  have htake : (body ++ closing ++ rest).takeWhile (· ≠ '}') = body := by
    rw [List.append_assoc, List.takeWhile_append_of_pos hne]
    exact List.append_nil body
  have hopening : opening ++ body ++ closing ++ rest =
      '$' :: '{' :: '{' :: (body ++ closing ++ rest) := by
    simp [opening]
  rw [hopening, openSpan?]
  simp only [hdrop, htake]

theorem openSpan?_eq_none_iff : openSpan? cs = none ↔ ¬ Opens cs := by
  constructor
  · rintro h ⟨body, rest, rfl, hbody⟩
    rw [openSpan?_of_notMem hbody] at h
    cases h
  · intro h
    cases ho : openSpan? cs with
    | none => rfl
    | some p => exact absurd ⟨p.1, p.2, openSpan?_eq ho⟩ h

/-- Where no span is found, none begins anywhere. -/
theorem not_opens_of_findSpan?_eq_none (h : findSpan? cs = none) {u v : List Char}
    (hcs : cs = u ++ v) : ¬ Opens v := by
  induction cs generalizing u with
  | nil =>
    obtain ⟨rfl, rfl⟩ := List.append_eq_nil_iff.mp hcs.symm
    exact not_opens_nil
  | cons c cs ih =>
    rw [findSpan?] at h
    split at h
    · cases h
    · rename_i ho
      cases u with
      | nil =>
        obtain rfl : c :: cs = v := hcs
        exact openSpan?_eq_none_iff.mp ho
      | cons c' u =>
        obtain ⟨-, htail⟩ := List.cons.inj hcs
        exact ih (Option.map_eq_none_iff.mp h) htail

/-- **The first span.** Wherever a span begins, it is not before the one that is found. -/
theorem before_prefix_of_opens (h : findSpan? cs = some (before, body, rest)) {u v : List Char}
    (hcs : cs = u ++ v) (hv : Opens v) : before <+: u := by
  induction cs generalizing before u with
  | nil => cases h
  | cons c cs ih =>
    rw [findSpan?] at h
    split at h
    · cases h
      exact List.nil_prefix
    · rename_i ho
      obtain ⟨⟨b, x, r⟩, hfind, heq⟩ := Option.map_eq_some_iff.mp h
      cases heq
      cases u with
      | nil =>
        obtain rfl : c :: cs = v := hcs
        exact absurd hv (openSpan?_eq_none_iff.mp ho)
      | cons c' u =>
        obtain ⟨rfl, htail⟩ := List.cons.inj hcs
        exact (List.prefix_cons_inj c).mpr (ih hfind htail)

/-- The text before the first span contains no span. -/
theorem not_opens_before (h : findSpan? cs = some (before, body, rest)) {u v : List Char}
    (hbefore : before = u ++ v) : ¬ Opens v := by
  intro hv
  have hcs : cs = u ++ (v ++ ((opening ++ body ++ closing) ++ rest)) := by
    rw [(findSpan?_eq h).1, hbefore, List.append_assoc, List.append_assoc]
  have hprefix : before <+: u := before_prefix_of_opens h hcs (hv.append _)
  have hlength := hprefix.length_le
  rw [hbefore, List.length_append] at hlength
  obtain rfl : v = [] := List.length_eq_zero_iff.mp (by omega)
  exact not_opens_nil hv

/-! ## The pieces of a text -/

theorem cut_of_findSpan?_eq_none (h : findSpan? cs = none) : cut cs = plain? cs := by
  rw [cut]
  split
  · rfl
  · rename_i hs
    rw [h] at hs
    cases hs

theorem cut_of_findSpan?_eq_some (h : findSpan? cs = some (before, body, rest)) :
    cut cs = plain? before ++ span body :: cut rest := by
  rw [cut]
  split
  · rename_i hn
    rw [h] at hn
    cases hn
  · rename_i hs
    rw [h] at hs
    cases hs
    rfl

theorem eq_plain_of_mem_plain? {p : Piece} (h : p ∈ plain? t) : p = plain t ∧ t ≠ [] := by
  rw [plain?] at h
  split at h
  · cases h
  · rename_i hne
    exact ⟨List.mem_singleton.mp h, hne⟩

/-- The body of a span has no closing brace. -/
theorem notMem_of_span_mem_cut (h : span body ∈ cut cs) : '}' ∉ body := by
  fun_induction cut cs with
  | case1 cs hfind => cases (eq_plain_of_mem_plain? h).1
  | case2 cs before body' rest hfind ih =>
    rcases List.mem_append.mp h with h | h
    · cases (eq_plain_of_mem_plain? h).1
    · rcases List.mem_cons.mp h with heq | h
      · cases heq
        exact (findSpan?_eq hfind).2
      · exact ih h

/-- A piece of plain text is not empty and contains no span. -/
theorem of_plain_mem_cut (h : plain t ∈ cut cs) : t ≠ [] ∧ ∀ u v, t = u ++ v → ¬ Opens v := by
  fun_induction cut cs with
  | case1 cs hfind =>
    obtain ⟨heq, hne⟩ := eq_plain_of_mem_plain? h
    cases heq
    exact ⟨hne, fun u v ↦ not_opens_of_findSpan?_eq_none hfind⟩
  | case2 cs before body rest hfind ih =>
    rcases List.mem_append.mp h with h | h
    · obtain ⟨heq, hne⟩ := eq_plain_of_mem_plain? h
      cases heq
      exact ⟨hne, fun u v ↦ not_opens_before hfind⟩
    · rcases List.mem_cons.mp h with heq | h
      · cases heq
      · exact ih h

/-- Nothing precedes, or a span does. -/
def EndsInSpan (pre : List Piece) : Prop := ∀ p ∈ pre.getLast?, ∃ body, p = span body

/-- **The next span.** Behind a span, or at the start of the text, the next span comes as soon as
one can begin. -/
theorem exists_next_span (h : cut cs = pre ++ post) (hpre : EndsInSpan pre) {u v : List Char}
    (hpost : post.flatMap text = u ++ v) (hv : Opens v) :
    ∃ lits body more, post = lits ++ span body :: more ∧ (∀ p ∈ lits, ∃ t, p = plain t) ∧
      lits.flatMap text <+: u := by
  fun_induction cut cs generalizing pre post with
  | case1 cs hfind =>
    -- There is no span at all, so the text of `post` is a part of one without any.
    have hcs : cs = pre.flatMap text ++ u ++ v := by
      rw [List.append_assoc, ← hpost, ← List.flatMap_append, ← h, flatMap_text_plain?]
    exact absurd hv (not_opens_of_findSpan?_eq_none hfind hcs)
  | case2 cs before body rest hfind ih =>
    rcases append_cons_eq_append h with ⟨mid, rfl, hmid⟩ | ⟨mid, hplain, rfl⟩
    -- `pre` has the first span in it.
    · refine ih hmid (fun p hp ↦ hpre p ?_) hpost
      obtain ⟨front, rfl⟩ := List.getLast?_eq_some_iff.mp hp
      rw [← List.cons_append, ← List.append_assoc, List.getLast?_concat]
      exact Option.mem_some_self p
    -- `pre` ends before the first span, so it is empty.
    · obtain rfl : pre = [] := by
        refine List.getLast?_eq_none_iff.mp (Option.eq_none_iff_forall_not_mem.mpr fun p hp ↦ ?_)
        obtain ⟨body', rfl⟩ := hpre p hp
        have hmem : span body' ∈ plain? before := by
          rw [hplain]
          exact List.mem_append_left _ (List.mem_of_getLast? hp)
        cases (eq_plain_of_mem_plain? hmem).1
      obtain rfl : plain? before = mid := hplain
      have hcs : cs = u ++ v := by
        rw [← hpost, ← flatMap_text_cut cs, cut_of_findSpan?_eq_some hfind]
      refine ⟨plain? before, body, cut rest, rfl, fun p hp ↦ ?_, ?_⟩
      · exact ⟨before, (eq_plain_of_mem_plain? hp).1⟩
      · rw [flatMap_text_plain?]
        exact before_prefix_of_opens hfind hcs hv

theorem eq_nil_of_plain?_eq {p : Piece} (h : plain? t = pre ++ p :: post) :
    pre = [] ∧ post = [] := by
  rw [plain?] at h
  split at h
  · cases (List.append_eq_nil_iff.mp h.symm).2
  · rcases List.cons_eq_append_iff.mp h with ⟨rfl, htail⟩ | ⟨as, -, has⟩
    · cases htail
      exact ⟨rfl, rfl⟩
    · cases (List.append_eq_nil_iff.mp has.symm).2

/-- Plain text is followed by a span or by nothing. -/
theorem span_of_cut_eq_plain_cons (h : cut cs = pre ++ plain t :: post) :
    ∀ p ∈ post.head?, ∃ body, p = span body := by
  fun_induction cut cs generalizing pre with
  | case1 cs hfind =>
    rw [(eq_nil_of_plain?_eq h).2]
    exact fun p hp ↦ by cases hp
  | case2 cs before body rest hfind ih =>
    rcases append_cons_eq_append h with ⟨mid, rfl, hmid⟩ | ⟨mid, hplain, hpost⟩
    · exact ih hmid
    -- The text stands before the first span, so it is all of the text there.
    · cases mid with
      | nil => cases hpost
      | cons y mid =>
        obtain ⟨rfl, rfl⟩ := List.cons.inj hpost
        obtain ⟨-, rfl⟩ := eq_nil_of_plain?_eq hplain
        rintro p ⟨⟩
        exact ⟨body, rfl⟩

end Piece

/-! ## The segments of a text -/

namespace Segment

variable {offset : Nat} {ps : List Piece} {pre post : List Segment}

/-- The text of some segments. -/
def joined (ss : List Segment) : String := String.join (ss.map text)

theorem joined_cons (x : Segment) (ss : List Segment) : joined (x :: ss) = x.text ++ joined ss :=
  String.join_cons

theorem joined_append (pre post : List Segment) :
    joined (pre ++ post) = joined pre ++ joined post := by
  rw [joined, List.map_append, String.join_append]
  rfl

/-- The segment of a piece at byte `offset`. -/
def ofPiece (offset : Nat) : Piece → Segment
  | .plain t => plain (String.ofList t)
  | .span body => span (.ofBody body offset)

theorem ofPieces_cons (offset : Nat) (p : Piece) (ps : List Piece) : ofPieces offset (p :: ps) =
    ofPiece offset p :: ofPieces (offset + byteLength p.text) ps := by
  cases p <;> rfl

theorem joined_ofPieces (offset : Nat) (ps : List Piece) :
    joined (ofPieces offset ps) = String.ofList (ps.flatMap Piece.text) :=
  join_text_ofPieces ps offset

theorem ofPieces_append (offset : Nat) (ps₁ ps₂ : List Piece) :
    ofPieces offset (ps₁ ++ ps₂) = ofPieces offset ps₁ ++
      ofPieces (offset + byteLength (ps₁.flatMap Piece.text)) ps₂ := by
  induction ps₁ generalizing offset with
  | nil => rfl
  | cons p ps₁ ih =>
    rw [List.cons_append, ofPieces_cons, ofPieces_cons, ih, List.flatMap_cons, byteLength_append,
      ← Nat.add_assoc, List.cons_append]

theorem exists_of_mem_ofPieces {x : Segment} (h : x ∈ ofPieces offset ps) :
    ∃ p ∈ ps, ∃ offset', x = ofPiece offset' p := by
  induction ps generalizing offset with
  | nil => cases h
  | cons p ps ih =>
    rw [ofPieces_cons] at h
    rcases List.mem_cons.mp h with rfl | h
    · exact ⟨p, List.mem_cons_self, offset, rfl⟩
    · obtain ⟨q, hq, hx⟩ := ih h
      exact ⟨q, List.mem_cons_of_mem p hq, hx⟩

/-- Segments are split where their pieces are. -/
theorem ofPieces_eq_append (h : ofPieces offset ps = pre ++ post) :
    ∃ ps₁ ps₂, ps = ps₁ ++ ps₂ ∧ ofPieces offset ps₁ = pre ∧
      ofPieces (offset + (joined pre).utf8ByteSize) ps₂ = post := by
  induction pre generalizing offset ps with
  | nil => exact ⟨[], ps, rfl, rfl, h⟩
  | cons x pre ih =>
    cases ps with
    | nil => cases h
    | cons p ps =>
      rw [ofPieces_cons] at h
      obtain ⟨rfl, htail⟩ := List.cons.inj h
      obtain ⟨ps₁, ps₂, rfl, rfl, hpost⟩ := ih htail
      refine ⟨p :: ps₁, ps₂, rfl, ofPieces_cons offset p ps₁, ?_⟩
      rw [← ofPieces_cons, joined_ofPieces, utf8ByteSize_ofList, List.flatMap_cons,
        byteLength_append, ← Nat.add_assoc]
      rw [joined_ofPieces, utf8ByteSize_ofList] at hpost
      exact hpost

theorem ofPieces_eq_append_cons {x : Segment} (h : ofPieces offset ps = pre ++ x :: post) :
    ∃ ps₁ p ps₂ offset', ps = ps₁ ++ p :: ps₂ ∧ x = ofPiece (offset + (joined pre).utf8ByteSize) p ∧
      ofPieces offset ps₁ = pre ∧ ofPieces offset' ps₂ = post := by
  obtain ⟨ps₁, ps₂, rfl, hpre, hpost⟩ := ofPieces_eq_append h
  cases ps₂ with
  | nil => cases hpost
  | cons p ps₂ =>
    rw [ofPieces_cons] at hpost
    obtain ⟨rfl, htail⟩ := List.cons.inj hpost
    exact ⟨ps₁, p, ps₂, _, rfl, rfl, hpre, htail⟩

end Segment

namespace Template

variable {source : String} {pre post : List Segment}

/-- A span begins where the text before it ends. Its text is a body between the marks, and the
expression in it keeps this body. -/
theorem span_of_segments_eq {s : Span} (h : (ofString source).segments = pre ++ .span s :: post) :
    s.offset = (Segment.joined pre).utf8ByteSize ∧
      ∃ body, s.raw = String.ofList (Piece.opening ++ body ++ Piece.closing) ∧ '}' ∉ body ∧
        ∀ e, s.reading = .ok e → e.source = String.ofList body := by
  obtain ⟨ps₁, p, ps₂, -, hcut, hs, -, -⟩ := Segment.ofPieces_eq_append_cons h
  rw [Nat.zero_add] at hs
  cases p with
  | plain t => cases hs
  | span body =>
    cases hs
    have hmem : Piece.span body ∈ Piece.cut source.toList := by
      rw [hcut]
      exact List.mem_append_right _ List.mem_cons_self
    refine ⟨rfl, body, rfl, Piece.notMem_of_span_mem_cut hmem, fun e he ↦ ?_⟩
    simp only [Span.ofBody, Expression.ofText] at he
    split at he
    · cases he
    · cases he
      rfl

/-- Plain text is not empty and contains no span, and none follows it directly. -/
theorem plain_of_segments_eq {t : String}
    (h : (ofString source).segments = pre ++ .plain t :: post) :
    t ≠ "" ∧ (∀ u v, t.toList = u ++ v → ¬ Piece.Opens v) ∧
      ∀ x ∈ post.head?, ∃ s, x = .span s := by
  obtain ⟨ps₁, p, ps₂, offset, hcut, ht, -, hpost⟩ := Segment.ofPieces_eq_append_cons h
  cases p with
  | span body => cases ht
  | plain t =>
    cases ht
    have hmem : Piece.plain t ∈ Piece.cut source.toList := by
      rw [hcut]
      exact List.mem_append_right _ List.mem_cons_self
    obtain ⟨hne, hopens⟩ := Piece.of_plain_mem_cut hmem
    refine ⟨?_, ?_, fun x hx ↦ ?_⟩
    · intro hempty
      rw [← String.toList_inj, String.toList_ofList] at hempty
      exact hne hempty
    · rw [String.toList_ofList]
      exact hopens
    · cases ps₂ with
      | nil =>
        rw [← hpost] at hx
        cases hx
      | cons p ps₂ =>
        obtain ⟨body, rfl⟩ := Piece.span_of_cut_eq_plain_cons hcut p rfl
        rw [← hpost, Segment.ofPieces_cons] at hx
        cases hx
        exact ⟨_, rfl⟩

/-- Behind a span, or at the start of the text, the next span comes as soon as one can begin. -/
theorem exists_next_span (h : (ofString source).segments = pre ++ post)
    (hpre : ∀ x ∈ pre.getLast?, ∃ s, x = .span s) {u v : List Char}
    (hpost : (Segment.joined post).toList = u ++ v) (hv : Piece.Opens v) :
    ∃ lits s more, post = lits ++ .span s :: more ∧ (∀ x ∈ lits, ∃ t, x = .plain t) ∧
      (Segment.joined lits).toList <+: u := by
  obtain ⟨ps₁, ps₂, hcut, rfl, rfl⟩ := Segment.ofPieces_eq_append h
  have hends : Piece.EndsInSpan ps₁ := by
    intro p hp
    obtain ⟨before, rfl⟩ := List.getLast?_eq_some_iff.mp hp
    rw [Segment.ofPieces_append, Segment.ofPieces_cons, List.getLast?_append] at hpre
    obtain ⟨s, hs⟩ := hpre _ rfl
    cases p with
    | plain t => cases hs
    | span body => exact ⟨body, rfl⟩
  rw [Segment.joined_ofPieces, String.toList_ofList] at hpost
  obtain ⟨lits, body, more, rfl, hlits, hprefix⟩ := Piece.exists_next_span hcut hends hpost hv
  rw [Segment.ofPieces_append, Segment.ofPieces_cons]
  refine ⟨_, _, _, rfl, fun x hx ↦ ?_, ?_⟩
  · obtain ⟨p, hp, offset, rfl⟩ := Segment.exists_of_mem_ofPieces hx
    obtain ⟨t, rfl⟩ := hlits p hp
    exact ⟨String.ofList t, rfl⟩
  · rwa [Segment.joined_ofPieces, String.toList_ofList]

/-- **A template is cut at its leftmost spans, and nothing is lost.** Put together, the segments of
a text are the text. A span begins where the text before it ends, and is a body without closing
braces between the marks, which is also the text of its expression. Plain text is never empty,
contains no span, and no other plain text follows it. From the end of a span, or the start of the
text, the next span begins at the first place where one can begin. -/
theorem ofString_segments (source : String) :
    Segment.joined (ofString source).segments = source ∧
    (∀ pre s post, (ofString source).segments = pre ++ .span s :: post →
      s.offset = (Segment.joined pre).utf8ByteSize ∧
        ∃ body, s.raw = String.ofList (Piece.opening ++ body ++ Piece.closing) ∧ '}' ∉ body ∧
          ∀ e, s.reading = .ok e → e.source = String.ofList body) ∧
    (∀ pre t post, (ofString source).segments = pre ++ .plain t :: post →
      t ≠ "" ∧ (∀ u v, t.toList = u ++ v → ¬ Piece.Opens v) ∧
        ∀ x ∈ post.head?, ∃ s, x = .span s) ∧
    ∀ pre post, (ofString source).segments = pre ++ post →
      (∀ x ∈ pre.getLast?, ∃ s, x = .span s) →
        ∀ u v, (Segment.joined post).toList = u ++ v → Piece.Opens v →
          ∃ lits s more, post = lits ++ .span s :: more ∧ (∀ x ∈ lits, ∃ t, x = .plain t) ∧
            (Segment.joined lits).toList <+: u :=
  ⟨source_ofString source, fun _ _ _ ↦ span_of_segments_eq, fun _ _ _ ↦ plain_of_segments_eq,
    fun _ _ h hpre _ _ ↦ exists_next_span h hpre⟩

end Template

end Interpolation
