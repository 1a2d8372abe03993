import Interpolation.Proofs.Expression.Grammar
import Interpolation.Proofs.Expression.Lexing
import Interpolation.Proofs.Manifest.Dependence
import Interpolation.Proofs.Template.Cutting

/-!
# What is in a list of names

Names are listed as they were scanned: each of them is a token in the text of some span. So it is
spelled as names are, in letters, digits, underscores and hyphens, whatever the text around it is.
Expressions, templates and manifests list the first occurrence of each name only.
-/

namespace Interpolation

/-! ## Repetitions -/

/-- No name is listed twice. -/
theorem nodup_distinct (names : List String) : (distinct names).Nodup := by
  have hfold : ∀ seen : List String, seen.Nodup →
      (names.foldl (fun seen name ↦ if name ∈ seen then seen else name :: seen) seen).Nodup := by
    induction names with
    | nil => exact fun seen hseen ↦ hseen
    | cons m names ih =>
      intro seen hseen
      rw [List.foldl_cons]
      refine ih _ ?_
      by_cases hm : m ∈ seen
      · rwa [if_pos hm]
      · rw [if_neg hm]
        exact List.nodup_cons.mpr ⟨hm, hseen⟩
  rw [distinct]
  exact List.nodup_reverse.mpr (hfold [] List.nodup_nil)

/-! ## From expressions to tokens -/

namespace Tree

variable {t : Tree} {n : String} {segments : List String}

theorem name_mem_tokens_of_mem_rootNames (h : n ∈ t.rootNames) : .name n ∈ t.tokens := by
  fun_induction rootNames t with
  | case1 s => simpa [tokens] using h
  | case2 s => cases h
  | case3 t ih => simp [tokens, ih h]
  | case4 l r ih => simp [tokens, ih h]
  | case5 c l r hc ihl ihr =>
    rcases List.mem_append.mp h with hl | hr
    · simp [tokens, ihl hl]
    · simp [tokens, ihr hr]

/-- Names are listed as they are scanned. -/
theorem name_mem_tokens_of_mem_names (h : n ∈ t.names segments) : .name n ∈ t.tokens := by
  fun_induction names t segments with
  | case1 s => simpa [tokens] using h
  | case2 s head rest => cases h
  | case3 s segments => cases h
  | case4 t segments ih => simp [tokens, ih h]
  | case5 l r => simp [tokens, name_mem_tokens_of_mem_rootNames h]
  | case6 l r head rest hhead ih => simp [tokens, ih h]
  | case7 l r head rest hhead => cases h
  | case8 c l r segments hnil hcons ihl ihr =>
    rcases List.mem_append.mp h with hl | hr
    · simp [tokens, ihl hl]
    · simp [tokens, ihr hr]

/-- The tokens of an expression are spelled in its text. -/
theorem valid_of_read {text : List Char} {offset : Nat} (h : read text offset = .ok t) :
    ∀ tok ∈ t.tokens, tok.Valid := by
  obtain ⟨ls, hscans, hphrase, -⟩ := exists_phrase_of_read h
  obtain ⟨rfl, -⟩ := Cursor.scans_iff.mp hscans
  rw [← consumes_nil_iff.mp hphrase.consumes]
  intro tok htok
  obtain ⟨l, hl, rfl⟩ := List.mem_map.mp htok
  exact (Cursor.spelled_of_lexemes rfl l hl).1

end Tree

theorem Expression.valid_of_mem_names {text : List Char} {offset : Nat} {e : Expression}
    {segments : List String} (h : ofText text offset = .ok e) :
    ∀ n ∈ e.names segments, (Token.name n).Valid := by
  intro n hn
  rw [ofText] at h
  split at h
  · cases h
  · rename_i t ht
    cases h
    exact Tree.valid_of_read ht _ (Tree.name_mem_tokens_of_mem_names (mem_distinct.mp hn))

/-! ## Lists of names -/

/-- Names that are spelled as names are, each of them once. -/
structure Listed (names : List String) : Prop where
  valid : ∀ n ∈ names, (Token.name n).Valid
  nodup : names.Nodup

theorem listed_distinct {names : List String} (h : ∀ n ∈ names, (Token.name n).Valid) :
    Listed (distinct names) :=
  ⟨fun n hn ↦ h n (mem_distinct.mp hn), nodup_distinct names⟩

variable {source : String} {segments names : List String}

/-- The names of a template. -/
theorem Template.listed_of_names_eq_ok (h : (ofString source).names segments = .ok names) :
    Listed names := by
  rw [Template.names] at h
  split at h
  · cases h
    refine listed_distinct fun n hn ↦ ?_
    obtain ⟨e, he, hn⟩ := List.mem_flatMap.mp hn
    obtain ⟨s, hs, hread⟩ := mem_expressions_iff.mp he
    obtain ⟨p, -, offset, hp⟩ := Segment.exists_of_mem_ofPieces hs
    cases p with
    | plain text => cases hp
    | span body =>
      cases hp
      exact Expression.valid_of_mem_names hread n hn
  · cases h

theorem Entry.valid_of_mem_names (e : Entry) (segments : List String) :
    ∀ n ∈ (e.names segments).1, (Token.name n).Valid := by
  intro n hn
  rw [Entry.names] at hn
  split at hn
  · split at hn
    · rename_i text _ ns hnames
      exact (Template.listed_of_names_eq_ok hnames).valid n hn
    · cases hn
  · cases hn
  · cases hn
  · cases hn

/-- The names of a manifest. -/
theorem Settings.listed_of_names_eq_ok {s : Settings} {d : Document}
    (h : s.names d segments = .ok names) : Listed names := by
  rw [Settings.names] at h
  split at h
  · cases h
    refine listed_distinct fun n hn ↦ ?_
    obtain ⟨found, hfound, hn⟩ := List.mem_flatMap.mp hn
    obtain ⟨e, -, rfl⟩ := List.mem_map.mp hfound
    exact e.valid_of_mem_names segments n hn
  · cases h

end Interpolation
