import Interpolation.Proofs.Document.Sameness
import Interpolation.Proofs.Manifest.Rewriting
import Interpolation.Proofs.Template.Rendering

/-!
# The two policies

What is wrong with an entry does not depend on the policy, and neither does the manifest that is
made. A manifest without any failure is resolved alike under both policies. Otherwise one of them
refuses it with its failures, and the other resolves it with the same failures as warnings.

## What becomes of an entry that fails

Such an entry keeps its value, but the value of an object may itself contain the entries of another
path. These are entries of their own: those without a failure are rewritten where they are, and the
object around them is what it was except for their texts. `Preserved` says this of all entries of a
manifest at once.
-/

namespace Interpolation

open Document

/-! ## The failures of an entry -/

namespace Entry

variable {context : Document} {e : Entry} {t : String}

/-- What is wrong with an entry: each span of its text that cannot be rendered, in the order of the
spans, or that the value is null, an array or an object. -/
def failures (context : Document) (e : Entry) : List Failure :=
  match e.value with
  | .string text =>
    Failure.ofSpans e text ((Template.ofString text).spans.filterMap (Span.failure? context))
  | .bool _ => []
  | .number _ => []
  | _ => [.notText e.path]

theorem replacement_snd (context : Document) (e : Entry) :
    (e.replacement context).2 = e.failures context := by
  rw [replacement, failures]
  cases e.value with
  | string text =>
    simp only [← Template.errors_renderLossy]
    split
    -- Without spans there are no errors either.
    · rename_i h
      have hspans : (Template.ofString text).spans = [] := by simpa [Template.hasSpans] using h
      rw [Template.errors_renderLossy, hspans]
      rfl
    · split
      · rename_i herr
        rw [herr]
        rfl
      · rfl
  | _ => rfl

/-- **An entry without a failure** is one whose value becomes a text. -/
theorem failures_eq_nil_iff : e.failures context = [] ↔ ∃ t, Rewrites context e.value t := by
  rw [failures]
  cases e.value with
  | string text =>
    simp only [Failure.ofSpans, List.map_eq_nil_iff, ← Template.errors_renderLossy]
    constructor
    · intro h
      exact ⟨_, .string (by rw [Template.render, if_pos h])⟩
    · rintro ⟨t, h⟩
      cases h with
      | string h =>
        rw [Template.render] at h
        split at h
        · assumption
        · cases h
  | bool b => exact ⟨fun _ ↦ ⟨_, .bool b⟩, fun _ ↦ rfl⟩
  | number n => exact ⟨fun _ ↦ ⟨_, .number n⟩, fun _ ↦ rfl⟩
  | _ =>
    constructor
    · intro h
      exact absurd h (List.cons_ne_nil _ _)
    · rintro ⟨t, h⟩
      cases h

theorem replacement_fst_of_failures (h : e.failures context ≠ []) :
    (e.replacement context).1 = none := by
  cases hr : (e.replacement context).1 with
  | none => rfl
  | some t => exact absurd (failures_eq_nil_iff.mpr ⟨t, rewrites_of_replacement hr⟩) h

end Entry

/-! ## What is preserved -/

/-- `r` has the texts of the entries `es` without a failure, and the values of the others as they
were, except for such texts inside. -/
structure Preserved (context : Document) (es : List Entry) (r : Document) : Prop where
  rendered : ∀ e ∈ es, e.failures context = [] →
    ∃ t, Rewrites context e.value t ∧ r.get? e.location = some (.string t)
  kept : ∀ e ∈ es, e.failures context ≠ [] →
    (∀ e' ∈ es, e'.failures context = [] → ¬ e.location <+: e'.location) →
    r.get? e.location = some e.value
  inside : ∀ e ∈ es, e.failures context ≠ [] → ∃ v, r.get? e.location = some v ∧
    SameBut (fun l ↦ ∃ e' ∈ es, e'.failures context = [] ∧ e'.location = e.location ++ l) e.value v

namespace Rewritten

variable {context d d' : Document} {e : Entry} {es : List Entry} {t : String}

/-- Only the places of entries with a replacement differ. -/
theorem sameBut_replaced (h : Rewritten context es d d') :
    SameBut (fun l ↦ ∃ e ∈ es, (e.replacement context).1 ≠ none ∧ e.location = l) d d' where
  outline_eq := h.outline_eq
  kept l v hv hs hl := by
    refine h.kept l v hv hs fun e he heq ↦ ?_
    by_contra hr
    exact hl ⟨e, he, hr, heq⟩

theorem sameBut (h : Rewritten context es d d') :
    SameBut (fun l ↦ ∃ e ∈ es, e.failures context = [] ∧ e.location = l) d d' := by
  refine h.sameBut_replaced.mono ?_
  rintro l ⟨e, he, hr, rfl⟩
  refine ⟨e, he, ?_, rfl⟩
  by_contra hnil
  exact hr (Entry.replacement_fst_of_failures hnil)

theorem preserved (h : Rewritten context es d d') (hd : d.WellFormed)
    (hes : ∀ e ∈ es, d.get? e.location = some e.value) : Preserved context es d' where
  rendered e he hnil := by
    obtain ⟨t, ht⟩ := Entry.failures_eq_nil_iff.mp hnil
    exact ⟨t, ht, h.get?_location_of_rewrites hes he ht⟩
  kept e he _ hnone := by
    obtain ⟨v, hv, hbelow⟩ := h.sameBut.exists_below (hes e he)
    have heq : v = e.value := by
      refine hbelow.eq (hd.get (hes e he)) ?_
      rintro l ⟨e', he', hnil, hl⟩
      exact hnone e' he' hnil ⟨l, hl.symm⟩
    rw [hv, heq]
  inside e he _ := h.sameBut.exists_below (hes e he)

end Rewritten

/-! ## Resolving under both policies -/

namespace Settings

/-- What is resolved stays well-formed. -/
theorem wellFormed_of_resolve {s : Settings} {d context : Document} {r : Resolution}
    (hd : d.WellFormed) (h : s.resolve d context = .ok r) : r.document.WellFormed :=
  (rewritten_of_resolve hd h).sameBut.wellFormed hd

theorem failures_eq_flatMap (s : Settings) (d context : Document) :
    s.failures d context = (s.entries d).flatMap (Entry.failures context) := by
  rw [failures]
  exact congrArg (List.flatMap · _) (funext (Entry.replacement_snd context))

/-- **The policies differ in what they report only.** A manifest without a failure is resolved alike
under both. Otherwise it is refused with its failures under one policy, and resolved with the same
failures for warnings under the other; then the entries that failed keep their values, except for
the texts of other entries inside. -/
theorem resolve_policies {d : Document} (paths : List String) (context : Document)
    (hd : d.WellFormed) :
    let es := Entry.ofPaths paths d
    let fs := es.flatMap (Entry.failures context)
    ∃ r, Preserved context es r ∧
      ((fs = [] ∧ (Settings.mk paths .fail).resolve d context = .ok ⟨r, []⟩ ∧
          (Settings.mk paths .preserve).resolve d context = .ok ⟨r, []⟩) ∨
        (fs ≠ [] ∧ (Settings.mk paths .fail).resolve d context = .error (.evaluation fs) ∧
          (Settings.mk paths .preserve).resolve d context = .ok ⟨r, fs⟩)) := by
  intro es fs
  have hrew : Rewritten context es d ((Settings.mk paths .fail).written d context) :=
    rewritten_written (s := ⟨paths, .fail⟩) hd
  refine ⟨_, hrew.preserved hd fun e he ↦ Entry.get?_location hd he, ?_⟩
  have hfail : (Settings.mk paths .fail).failures d context = fs := failures_eq_flatMap _ _ _
  have hpreserve : (Settings.mk paths .preserve).failures d context = fs :=
    failures_eq_flatMap _ _ _
  rw [resolve, resolve, hfail, hpreserve]
  by_cases hnil : fs = []
  · exact .inl ⟨hnil, if_pos hnil, if_pos hnil⟩
  · exact .inr ⟨hnil, if_neg hnil, if_neg hnil⟩

/-- An env map inside an entry of another one. -/
def nested : Document :=
  object [("a", object [("b", object [("c", string "${{x}}")])])]

theorem wellFormed_nested : nested.WellFormed := .singleton (.singleton (.singleton (.string _)))

theorem ofPaths_nested : Entry.ofPaths ["a", "a.b"] nested =
    [⟨[.key "a"], "b", object [("c", string "${{x}}")]⟩,
      ⟨[.key "a", .key "b"], "c", string "${{x}}"⟩] := by
  cbv

set_option maxRecDepth 4000 in
/-- The outer entry fails under both policies, and the inner one is rewritten. -/
theorem resolve_policies_of_nested :
    (Settings.mk ["a", "a.b"] .fail).resolve nested (object [("x", string "1")]) =
        .error (.evaluation [.notText "a.b"]) ∧
      ∃ r, (Settings.mk ["a", "a.b"] .preserve).resolve nested (object [("x", string "1")]) =
          .ok ⟨r, [.notText "a.b"]⟩ ∧
        r.get? [.key "a", .key "b", .key "c"] = some (string "1") := by
  have hfailures : (Entry.ofPaths ["a", "a.b"] nested).flatMap
      (Entry.failures (object [("x", string "1")])) = [.notText "a.b"] := by
    cbv
  obtain ⟨r, hr, ⟨hnil, -⟩ | ⟨-, hfail, hpreserve⟩⟩ :=
    resolve_policies ["a", "a.b"] (object [("x", string "1")]) wellFormed_nested
  · rw [hfailures] at hnil
    cases hnil
  · rw [hfailures] at hfail hpreserve
    refine ⟨hfail, r, hpreserve, ?_⟩
    rw [ofPaths_nested] at hr
    obtain ⟨t, ht, hget⟩ := hr.rendered ⟨[.key "a", .key "b"], "c", string "${{x}}"⟩ (by simp)
      (by cbv)
    have htext : t = "1" := by
      cases ht with
      | string h =>
        have hrender : (Template.ofString "${{x}}").render (object [("x", string "1")]) =
          .ok "1" := by cbv
        rw [hrender] at h
        exact (Except.ok.inj h).symm
    rw [← htext]
    exact hget

set_option maxRecDepth 4000 in
/-- An entry that fails does not always keep its value as a whole. -/
theorem exists_failing_entry_not_kept :
    ∃ r, ∃ e ∈ Entry.ofPaths ["a", "a.b"] nested,
      (Settings.mk ["a", "a.b"] .preserve).resolve nested (object [("x", string "1")]) =
          .ok ⟨r, [.notText "a.b"]⟩ ∧
        e.failures (object [("x", string "1")]) = [.notText "a.b"] ∧
        r.get? e.location ≠ some e.value := by
  have hresolve : (Settings.mk ["a", "a.b"] .preserve).resolve nested
      (object [("x", string "1")]) =
        .ok ⟨object [("a", object [("b", object [("c", string "1")])])], [.notText "a.b"]⟩ := by
    cbv
  refine ⟨_, ⟨[.key "a"], "b", object [("c", string "${{x}}")]⟩, ?_, hresolve, by cbv, fun h ↦ ?_⟩
  · rw [ofPaths_nested]
    exact List.mem_cons_self
  · have hvalue : object [("c", string "1")] = object [("c", string "${{x}}")] := Option.some.inj h
    simp at hvalue

end Settings

end Interpolation
