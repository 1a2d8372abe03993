import Mathlib
import Interpolation.Manifest.Resolver
import Interpolation.Proofs.Expression.Dependence
import Interpolation.Proofs.Template.Source

/-!
# What a manifest depends on

The context enters the resolution of a manifest only through the texts of the expressions in its
entries. If the manifest can be searched for names at all, then every span of every entry holds an
expression, and the names that are found are the root names of all of them. So they are everything
that a manifest depends on.
-/

namespace Interpolation

open Document

/-! ## From expressions to templates -/

namespace Template

variable {t : Template} {c c' : Document} {e : Expression} {segments names : List String}

theorem mem_expressions_iff :
    e ∈ t.expressions ↔ ∃ s, Segment.span s ∈ t.segments ∧ s.reading = .ok e := by
  rw [expressions]
  constructor
  · intro h
    obtain ⟨s, hs, he⟩ := List.mem_filterMap.mp h
    refine ⟨s, mem_spans_iff.mp hs, ?_⟩
    cases hr : s.reading with
    | error err => simp [hr, Except.toOption] at he
    | ok e' =>
      rw [hr] at he
      cases he
      rfl
  · rintro ⟨s, hs, he⟩
    refine List.mem_filterMap.mpr ⟨s, mem_spans_iff.mpr hs, ?_⟩
    rw [he]
    rfl

/-- A template's rendering depends on the texts of its expressions only. -/
theorem renderLossy_congr (h : ∀ e ∈ t.expressions, e.render c = e.render c') :
    t.renderLossy c = t.renderLossy c' := by
  have hsegment : ∀ x ∈ t.segments,
      x.render c SpanError.raw = x.render c' SpanError.raw := by
    intro x hx
    cases x with
    | plain text => rfl
    | span s =>
      have hspan : s.render c = s.render c' := by
        rw [Span.render, Span.render]
        cases hr : s.reading with
        | error err => rfl
        | ok e => simp only [h e (mem_expressions_iff.mpr ⟨s, hx, hr⟩)]
      rw [Segment.render, Segment.render, hspan]
  rw [renderLossy, renderLossy, renderWith, renderWith, List.map_congr_left hsegment]

/-- The names of a template are those of its expressions. -/
theorem mem_of_names_eq_ok (h : t.names segments = .ok names) (he : e ∈ t.expressions) {n : String}
    (hn : n ∈ e.tree.names segments) : n ∈ names := by
  rw [Template.names] at h
  split at h
  · cases h
    exact mem_distinct.mpr (List.mem_flatMap.mpr ⟨e, he, mem_distinct.mpr hn⟩)
  · cases h

/-- There are no names only if there are errors. -/
theorem ne_nil_of_names_eq_error {errors : List SpanError}
    (h : t.names segments = .error errors) : errors ≠ [] := by
  rw [Template.names] at h
  split at h
  · cases h
  · rename_i hne
    cases h
    exact hne

end Template

/-! ## From templates to entries -/

namespace Entry

variable {e : Entry} {c c' : Document} {segments names : List String}

/-- What an entry is replaced by depends on the texts of its expressions only. -/
theorem replacement_congr
    (h : ∀ text, e.value = .string text → ∀ x ∈ (Template.ofString text).expressions,
      x.render c = x.render c') :
    e.replacement c = e.replacement c' := by
  rw [replacement, replacement]
  cases hv : e.value with
  | string text => simp only [Template.renderLossy_congr (h text hv)]
  | _ => rfl

/-- An entry without a failure lists the names of all its expressions. -/
theorem mem_names {text : String} (h : (e.names segments).2 = []) (hv : e.value = .string text)
    {x : Expression} (hx : x ∈ (Template.ofString text).expressions) {n : String}
    (hn : n ∈ x.tree.names segments) : n ∈ (e.names segments).1 := by
  rw [Entry.names, hv] at h ⊢
  simp only at h ⊢
  cases hnames : (Template.ofString text).names segments with
  | ok ns => exact Template.mem_of_names_eq_ok hnames hx hn
  | error errors =>
    rw [hnames] at h
    exact absurd (List.map_eq_nil_iff.mp h) (Template.ne_nil_of_names_eq_error hnames)

/-- What is written for an entry depends on its replacement only. -/
theorem write_congr (h : e.replacement c = e.replacement c') (d : Document) :
    e.write c d = e.write c' d := by
  rw [write, write, h]

end Entry

/-! ## From entries to manifests -/

namespace Settings

variable {s : Settings} {d c c' : Document} {segments names : List String}

/-- A resolved manifest depends on the replacements of its entries only. -/
theorem resolve_congr (h : ∀ e ∈ s.entries d, e.replacement c = e.replacement c') :
    s.resolve d c = s.resolve d c' := by
  have hwritten : s.written d c = s.written d c' :=
    List.foldl_ext _ _ d fun d' e he ↦ Entry.write_congr (h e he) d'
  have hfailures : s.failures d c = s.failures d c' :=
    List.flatMap_congr fun e he ↦ by rw [h e he]
  rw [resolve, resolve, hwritten, hfailures]

/-- The names of a manifest are those of all its expressions. -/
theorem mem_of_names_eq_ok (h : s.names d segments = .ok names) {e : Entry}
    (he : e ∈ s.entries d) {text : String} (hv : e.value = .string text) {x : Expression}
    (hx : x ∈ (Template.ofString text).expressions) {n : String}
    (hn : n ∈ x.tree.names segments) : n ∈ names := by
  rw [Settings.names] at h
  split at h
  · rename_i hfailures
    cases h
    have hfound : e.names segments ∈ (s.entries d).map (Entry.names segments) :=
      List.mem_map_of_mem he
    have hnone : (e.names segments).2 = [] := List.flatMap_eq_nil_iff.mp hfailures _ hfound
    exact mem_distinct.mpr
      (List.mem_flatMap.mpr ⟨_, hfound, Entry.mem_names hnone hv hx hn⟩)
  · cases h

/-- **The names are everything.** Contexts that agree on the names of a manifest lead to the same
resolution, with the same warnings, or to the same failure. -/
theorem resolve_eq_of_agreeOn {fs gs : List (String × Document)}
    (h : s.names d [] = .ok names) (agree : ∀ n ∈ names, AgreeOn n fs gs) :
    s.resolve d (.object fs) = s.resolve d (.object gs) := by
  refine resolve_congr fun e he ↦ Entry.replacement_congr fun text hv x hx ↦ ?_
  refine Expression.render_congr fun n hn ↦ agree n ?_
  exact mem_of_names_eq_ok h he hv hx (by rwa [Tree.names_nil])

set_option maxRecDepth 4000 in
/-- The two zeros, and a name that is not read. The entry that fails is kept in both contexts. -/
theorem resolve_eq_of_agreeOn_zeros :
    let manifest := object [("env", object [("A", string "${{x}}"), ("B", string "${{x.y}}")])]
    let settings := Settings.mk ["env"] .preserve
    let fs := [("x", number (.float ⟨false, 0, -1074⟩))]
    let gs := [("x", number (.float ⟨true, 0, -1074⟩)), ("y", null)]
    let kept : SpanError := ⟨"${{x.y}}", 0, .unevaluable (.notResolved "x.y")⟩
    let resolution : Resolution :=
      ⟨object [("env", object [("A", string "0"), ("B", string "${{x.y}}")])],
        [.unmapped "env.B" "${{x.y}}" kept]⟩
    settings.names manifest [] = .ok ["x"] ∧ AgreeOn "x" fs gs ∧
      settings.resolve manifest (object fs) = .ok resolution ∧
      settings.resolve manifest (object gs) = .ok resolution := by
  intro manifest settings fs gs kept resolution
  have hnames : settings.names manifest [] = .ok ["x"] := by cbv
  have hx : AgreeOn "x" fs gs := rfl
  have hsame := resolve_eq_of_agreeOn hnames fun n hn ↦ List.mem_singleton.mp hn ▸ hx
  have hwritten : settings.written manifest (object fs) = resolution.document := by cbv
  have hfailures : settings.failures manifest (object fs) = resolution.warnings := by cbv
  have hfs : settings.resolve manifest (object fs) = .ok resolution := by
    rw [resolve, hwritten, hfailures]
    rfl
  exact ⟨hnames, hx, hfs, hsame ▸ hfs⟩

end Settings

end Interpolation
