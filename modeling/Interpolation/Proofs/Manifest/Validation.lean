import Interpolation.Proofs.Manifest.Policy

/-!
# Searching and resolving find the same defects

A manifest is searched for names without a context, and resolved in one. The two go through the
entries on their own, and look at a text differently: the search asks its template for the spans
that hold no expression, the resolution renders it and collects the spans that fail. Still they
agree on every entry. What the search finds wrong are the failures of the resolution that do not
depend on the context: spans without an expression, and values that are no text at all. So a
manifest that passes the search can only fail for what a context lacks.
-/

namespace Interpolation

/-! ## Texts -/

namespace Template

variable {t : Template} {segments names : List String} {errors : List SpanError}

theorem syntaxErrors_of_names_eq_ok (h : t.names segments = .ok names) : t.syntaxErrors = [] := by
  rw [Template.names] at h
  split at h
  · assumption
  · cases h

theorem syntaxErrors_of_names_eq_error (h : t.names segments = .error errors) :
    t.syntaxErrors = errors := by
  rw [Template.names] at h
  split at h
  · cases h
  · cases h
    rfl

end Template

namespace Failure

theorem dependsOnContext_unmapped (path text : String) (error : SpanError) :
    (unmapped path text error).dependsOnContext = !error.defect.isMalformed := by
  simp [dependsOnContext]

/-- Of the failures of a text's spans, those stay that show without a context. -/
theorem filter_ofSpans (e : Entry) (text : String) (errors : List SpanError) :
    (ofSpans e text errors).filter (!·.dependsOnContext) =
      ofSpans e text (errors.filter (·.defect.isMalformed)) := by
  have hcomp : ((!·.dependsOnContext) ∘ unmapped e.path text) =
      fun error : SpanError ↦ error.defect.isMalformed := by
    funext error
    rw [Function.comp_apply, dependsOnContext_unmapped, Bool.not_not]
  rw [ofSpans, List.filter_map, hcomp]
  rfl

end Failure

/-! ## Entries -/

namespace Entry

/-- **One entry.** -/
theorem names_snd (segments : List String) (context : Document) (e : Entry) :
    (e.names segments).2 = (e.failures context).filter (!·.dependsOnContext) := by
  rw [names, failures]
  cases e.value with
  | string text =>
    simp only [Failure.filter_ofSpans, ← Template.syntaxErrors_eq_filter]
    cases h : (Template.ofString text).names segments with
    | ok ns =>
      rw [Template.syntaxErrors_of_names_eq_ok h]
      rfl
    | error errors => rw [Template.syntaxErrors_of_names_eq_error h]
  | bool b => rfl
  | number n => rfl
  | _ => rfl

end Entry

/-! ## Manifests -/

namespace Settings

variable {s : Settings} {d : Document} {segments : List String}

/-- The failures that a manifest is refused with where none is passed over; none if it is not. -/
def strictFailures (s : Settings) (d context : Document) : List Failure :=
  match (s.withPolicy .fail).resolve d context with
  | .ok _ => []
  | .error e => e.failures

theorem strictFailures_eq (s : Settings) (d context : Document) :
    s.strictFailures d context = (s.entries d).flatMap (Entry.failures context) := by
  have hfailures : (s.withPolicy .fail).failures d context =
      (s.entries d).flatMap (Entry.failures context) := failures_eq_flatMap _ d context
  rw [strictFailures, resolve, hfailures]
  by_cases h : (s.entries d).flatMap (Entry.failures context) = []
  · simp only [if_pos h]
    exact h.symm
  · simp only [if_neg h]
    rfl

/-- What is wrong with the entries without a context. -/
theorem flatMap_names_snd (segments : List String) (s : Settings) (d context : Document) :
    ((s.entries d).map (Entry.names segments)).flatMap Prod.snd =
      (s.strictFailures d context).filter (!·.dependsOnContext) := by
  rw [strictFailures_eq, List.filter_flatMap, List.flatMap_map]
  exact congrArg (List.flatMap · _) (funext (Entry.names_snd segments context))

theorem names_eq_error_iff (context : Document) {err : ManifestError} :
    s.names d segments = .error err ↔
      (s.strictFailures d context).filter (!·.dependsOnContext) ≠ [] ∧
        err = .validation ((s.strictFailures d context).filter (!·.dependsOnContext)) := by
  rw [names, flatMap_names_snd segments s d context]
  constructor
  · intro h
    split at h
    · cases h
    · rename_i hne
      cases h
      exact ⟨hne, rfl⟩
  · rintro ⟨hne, rfl⟩
    exact if_neg hne

/-- **A search reports the defects that a resolution reports in any context.** The search of a
manifest for names fails just when the failures of its resolution are not only such as depend on the
context. It fails with the others then: the same failures, hence in the same words, and in the same
order. Neither whether nor how it fails depends on the prefix under which names are searched. -/
theorem search_reports_strictFailures (s : Settings) (d context : Document)
    (segments : List String) :
    (∀ err, s.names d segments = .error err ↔
      (∃ f ∈ s.strictFailures d context, f.dependsOnContext = false) ∧
        err = .validation ((s.strictFailures d context).filter (!·.dependsOnContext))) ∧
      ∀ segments' err, s.names d segments = .error err ↔ s.names d segments' = .error err := by
  refine ⟨fun err ↦ ?_, fun segments' err ↦ ?_⟩
  · have hne : (s.strictFailures d context).filter (!·.dependsOnContext) ≠ [] ↔
        ∃ f ∈ s.strictFailures d context, f.dependsOnContext = false := by
      simp [List.filter_eq_nil_iff]
    rw [names_eq_error_iff context, hne]
  · rw [names_eq_error_iff context, names_eq_error_iff context]

end Settings

end Interpolation
