import Interpolation.Proofs.Manifest.Dependence
import Interpolation.Proofs.Manifest.Policy

/-!
# Contexts with more in them

A context may be extended by further names without any harm to what succeeds in it. A root name that
is missing is an error, and no operator recovers from an error, so whatever has been evaluated has
read names that are there. Names that are not read may as well be there.

Below the root this would not hold: a key that is missing there is no error, and `||` goes on to its
right side for it. It does not have to, since the values under the names of the smaller context stay
what they are.
-/

namespace Interpolation

open Document

/-! ## Expressions -/

namespace Document

variable {fs gs : List (String × Document)}

/-- Each field of `fs` is one of `gs`, with an equal value. -/
def ExtendedBy (fs gs : List (String × Document)) : Prop :=
  ∀ n, fs.lookup n ≠ none → AgreeOn n fs gs

theorem ExtendedBy.lookup_unsignedFields (h : ExtendedBy fs gs) {n : String} {d : Document}
    (hd : (unsignedFields fs).lookup n = some d) : (unsignedFields gs).lookup n = some d := by
  have hn : fs.lookup n ≠ none := by
    intro hnone
    rw [Document.lookup_unsignedFields, hnone] at hd
    cases hd
  rw [← agreeOn_iff.mp (h n hn), hd]

end Document

namespace Tree

variable {t : Tree} {fs gs : List (String × Document)} {x : Resolved}

/-- **A value stays what it is.** Only at the root a missing name is an error, so the empty path is
essential here. -/
theorem evaluate_of_extension (hext : ∀ n d, fs.lookup n = some d → gs.lookup n = some d)
    (h : t.evaluate (.document (.object fs)) [] = .ok x) :
    t.evaluate (.document (.object gs)) [] = .ok x := by
  induction t generalizing x with
  | name s =>
    have hreads : Reads s (.document (.object fs)) [] (.ok x) :=
      h ▸ reads_evaluateName s (.document (.object fs)) []
    cases hreads with
    | found hd => exact evaluate_name_of_lookup (hext s _ hd) []
    | absent hn hd hp => exact absurd rfl hp
  | quoted s => exact h
  | group t ih => exact ih h
  | join con l r ihl ihr =>
    cases con with
    | dot =>
      rw [evaluate_dot] at h ⊢
      obtain ⟨base, hl, hr⟩ := bind_eq_ok_iff.mp h
      exact bind_eq_ok_iff.mpr ⟨base, ihl hl, hr⟩
    | or =>
      rw [evaluate_or] at h ⊢
      obtain ⟨left, hl, h⟩ := bind_eq_ok_iff.mp h
      refine bind_eq_ok_iff.mpr ⟨left, ihl hl, ?_⟩
      by_cases ht : left.value.isTruthy
      · rwa [if_pos ht] at h ⊢
      · rw [if_neg ht] at h ⊢
        exact ihr h
    | and =>
      rw [evaluate_and] at h ⊢
      obtain ⟨left, hl, h⟩ := bind_eq_ok_iff.mp h
      refine bind_eq_ok_iff.mpr ⟨left, ihl hl, ?_⟩
      by_cases ht : left.value.isTruthy
      · rw [if_pos ht] at h ⊢
        exact ihr h
      · rwa [if_neg ht] at h ⊢

end Tree

theorem Expression.render_of_extendedBy {e : Expression} {fs gs : List (String × Document)}
    {text : String} (hext : ExtendedBy fs gs) (h : e.render (.object fs) = .ok text) :
    e.render (.object gs) = .ok text := by
  rw [← render_unsigned, unsigned, render] at h ⊢
  cases hx : e.resolve (.object (unsignedFields fs)) with
  | error err =>
    rw [hx] at h
    cases h
  | ok x =>
    have hsame : e.resolve (.object (unsignedFields gs)) = .ok x :=
      Tree.evaluate_of_extension (fun n d ↦ hext.lookup_unsignedFields) hx
    rw [hx] at h
    rwa [hsame]

/-! ## Templates -/

namespace Template

variable {t : Template} {c c' : Document} {fs gs : List (String × Document)}

/-- Without errors, all expressions have a text. -/
theorem exists_render_of_errors_eq_nil (h : (t.renderLossy c).errors = []) {e : Expression}
    (he : e ∈ t.expressions) : ∃ text, e.render c = .ok text := by
  obtain ⟨s, hs, hread⟩ := mem_expressions_iff.mp he
  rw [errors_renderLossy, List.filterMap_eq_nil_iff] at h
  have hnone : s.failure? c = none := h s (mem_spans_iff.mpr hs)
  cases hrender : e.render c with
  | ok text => exact ⟨text, rfl⟩
  | error err =>
    have hsome : s.failure? c = some (s.fail (.unevaluable err)) :=
      Span.failure?_eq_some_iff.mpr ⟨_, .unevaluable hread hrender, rfl⟩
    rw [hnone] at hsome
    cases hsome

theorem renderLossy_of_extendedBy (hext : ExtendedBy fs gs)
    (h : (t.renderLossy (.object fs)).errors = []) :
    t.renderLossy (.object fs) = t.renderLossy (.object gs) := by
  refine renderLossy_congr fun e he ↦ ?_
  obtain ⟨text, htext⟩ := exists_render_of_errors_eq_nil h he
  rw [htext, Expression.render_of_extendedBy hext htext]

theorem render_of_extendedBy {text : String} (hext : ExtendedBy fs gs)
    (h : t.render (.object fs) = .ok text) : t.render (.object gs) = .ok text := by
  obtain ⟨herrors, htext⟩ := render_eq_ok_iff.mp h
  have hsame := renderLossy_of_extendedBy hext herrors
  rw [hsame] at herrors htext
  exact render_eq_ok_iff.mpr ⟨herrors, htext⟩

end Template

/-! ## Manifests -/

/-- An entry without a failure is replaced by the same text. -/
theorem Entry.replacement_of_extendedBy {e : Entry} {fs gs : List (String × Document)}
    (hext : ExtendedBy fs gs) (h : e.failures (.object fs) = []) :
    e.replacement (.object fs) = e.replacement (.object gs) := by
  refine replacement_congr fun text hv x hx ↦ ?_
  rw [failures, hv] at h
  simp only [Failure.ofSpans, List.map_eq_nil_iff, ← Template.errors_renderLossy] at h
  obtain ⟨s, hs⟩ := Template.exists_render_of_errors_eq_nil h hx
  rw [hs, Expression.render_of_extendedBy hext hs]

namespace Settings

variable {fs gs : List (String × Document)}

theorem failures_of_resolve_eq_ok {paths : List String} {d c : Document} {r : Resolution}
    (h : (Settings.mk paths .fail).resolve d c = .ok r) :
    ∀ e ∈ Entry.ofPaths paths d, e.failures c = [] := by
  rw [resolve] at h
  split at h
  · rename_i hnil
    rw [failures_eq_flatMap] at hnil
    exact List.flatMap_eq_nil_iff.mp hnil
  · cases h

/-- **Further names never change a success.** What a text is rendered to in a context, and what a
manifest without any failure is resolved to, it also is in every context that has the same names
with equal values, and others. -/
theorem success_of_extendedBy (hext : ExtendedBy fs gs) :
    (∀ source text, (Template.ofString source).render (.object fs) = .ok text →
      (Template.ofString source).render (.object gs) = .ok text) ∧
    ∀ paths d r, (Settings.mk paths .fail).resolve d (.object fs) = .ok r →
      (Settings.mk paths .fail).resolve d (.object gs) = .ok r := by
  refine ⟨fun source text ↦ Template.render_of_extendedBy hext, fun paths d r h ↦ ?_⟩
  rw [← h]
  refine (resolve_congr fun e he ↦ ?_).symm
  exact Entry.replacement_of_extendedBy hext (failures_of_resolve_eq_ok h e he)

set_option maxRecDepth 4000 in
/-- In a context with another name, and the other zero, two names are read as before. -/
theorem success_of_extendedBy_zeros :
    let fs := [("x", number (.float ⟨false, 0, -1074⟩)), ("y", string "1")]
    let gs := [("n", null), ("x", number (.float ⟨true, 0, -1074⟩)), ("y", string "1")]
    ExtendedBy fs gs ∧
      (Template.ofString "${{x || y}} of 2").render (.object gs) = .ok "1 of 2" ∧
      (Settings.mk ["env"] .fail).resolve (object [("env", object [("A", string "${{x}}")])])
        (.object gs) = .ok ⟨object [("env", object [("A", string "0")])], []⟩ := by
  intro fs gs
  have hext : ExtendedBy fs gs := by
    intro n hn
    by_cases hx : n = "x"
    · subst hx
      rfl
    by_cases hy : n = "y"
    · subst hy
      rfl
    · exact absurd (by simp [fs, lookup_cons_eq, hx, hy]) hn
  obtain ⟨hrender, hresolve⟩ := success_of_extendedBy hext
  exact ⟨hext, hrender _ _ (by cbv), hresolve _ _ _ (by cbv)⟩

end Settings

end Interpolation
