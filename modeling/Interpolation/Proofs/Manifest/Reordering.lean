import Interpolation.Proofs.Manifest.Dependence
import Interpolation.Proofs.Manifest.Policy

/-!
# Env paths in another order

The env paths of a resolver are gone through one after another. They may stand in any order, some of
them more than once, and paths may overlap: two of them lead to one map, or one leads into an entry
of the other. None of this shows in what a manifest is resolved to, or in whether it is resolved at
all. Failures come in the order of the paths, once for each time that a path is listed, but they are
the same ones.

For failures and names this is so because they are collected entry by entry. The document is another
matter, since the writes go through the same document. Here `Rewritten` helps, the invariant of
these writes: it speaks of the entries that were written as a set, and it leaves no choice for the
document.
-/

namespace Interpolation

open Document

/-! ## Lists as sets -/

/-- The members are the same, in any order and number. -/
def SameMembers {α : Type} (l l' : List α) : Prop := ∀ x, x ∈ l ↔ x ∈ l'

namespace SameMembers

variable {α β : Type} {l l' : List α}

instance [DecidableEq α] (l l' : List α) : Decidable (SameMembers l l') :=
  decidable_of_iff ((∀ x ∈ l, x ∈ l') ∧ ∀ x ∈ l', x ∈ l)
    ⟨fun h x ↦ ⟨h.1 x, h.2 x⟩, fun h ↦ ⟨fun x ↦ (h x).mp, fun x ↦ (h x).mpr⟩⟩

theorem flatMap (h : SameMembers l l') (f : α → List β) :
    SameMembers (l.flatMap f) (l'.flatMap f) := by
  intro y
  rw [List.mem_flatMap, List.mem_flatMap]
  exact exists_congr fun x ↦ and_congr_left' (h x)

theorem eq_nil_iff (h : SameMembers l l') : l = [] ↔ l' = [] := by
  rw [List.eq_nil_iff_forall_not_mem, List.eq_nil_iff_forall_not_mem]
  exact forall_congr' fun x ↦ not_congr (h x)

theorem distinct {ns ns' : List String} (h : SameMembers ns ns') :
    SameMembers (distinct ns) (distinct ns') := by
  intro n
  rw [mem_distinct, mem_distinct]
  exact h n

end SameMembers

/-! ## The document -/

namespace Rewritten

variable {context d d' d₁ d₂ : Document} {es es' : List Entry}

/-- The order of the entries does not occur in the invariant. -/
theorem of_sameMembers (h : Rewritten context es d d') (hes : SameMembers es es') :
    Rewritten context es' d d' where
  outline_eq := h.outline_eq
  written e he := h.written e ((hes e).mpr he)
  kept l v hv hs hnone := h.kept l v hv hs fun e he ↦ hnone e ((hes e).mp he)

/-- **The invariant determines the document.** -/
theorem unique (hd : d.WellFormed) (h₁ : Rewritten context es d d₁)
    (h₂ : Rewritten context es d d₂) : d₁ = d₂ := by
  have hsame : SameBut (fun _ ↦ False) d₂ d₁ := by
    refine ⟨fun l ↦ (h₁.outline_eq l).trans (h₂.outline_eq l).symm, fun l v hv hs _ ↦ ?_⟩
    by_cases hwritten : ∃ e ∈ es, e.location = l ∧ (e.replacement context).1 ≠ none
    · obtain ⟨e, he, rfl, hr⟩ := hwritten
      obtain ⟨t, ht⟩ := Option.ne_none_iff_exists'.mp hr
      rw [← hv, h₁.written e he t ht, h₂.written e he t ht]
    -- Where no entry is written, both have the scalar of the original.
    · have hnone : ∀ e ∈ es, e.location = l → (e.replacement context).1 = none := by
        intro e he hl
        by_contra hr
        exact hwritten ⟨e, he, hl, hr⟩
      obtain ⟨w, hw, hws⟩ : ∃ w, d.get? l = some w ∧ w.outline = .scalar := by
        have hl := h₂.outline_eq l
        rw [hv, Option.map_some, hs] at hl
        exact Option.map_eq_some_iff.mp hl.symm
      rw [← hv, h₁.kept l w hw hws hnone, h₂.kept l w hw hws hnone]
  exact hsame.eq (h₂.sameBut_replaced.wellFormed hd) fun l ↦ id

end Rewritten

/-! ## Answers -/

/-- Resolutions to the same document, with warnings that `listed` relates. -/
def Resolution.Alike (listed : List Failure → List Failure → Prop) (r r' : Resolution) : Prop :=
  r.document = r'.document ∧ listed r.warnings r'.warnings

/-- Answers of one kind: results that `same` relates, or failures that `listed` relates. -/
inductive Alike {α : Type} (same : α → α → Prop) (listed : List Failure → List Failure → Prop) :
    Except ManifestError α → Except ManifestError α → Prop where
  | ok {a a' : α} (h : same a a') : Alike same listed (.ok a) (.ok a')
  | evaluation {fs fs' : List Failure} (h : listed fs fs') :
      Alike same listed (.error (.evaluation fs)) (.error (.evaluation fs'))
  | validation {fs fs' : List Failure} (h : listed fs fs') :
      Alike same listed (.error (.validation fs)) (.error (.validation fs'))

namespace Settings

variable {d context : Document} {paths paths' : List String} {policy : Policy}
  {listed : List Failure → List Failure → Prop}

theorem entries_of_sameMembers (h : SameMembers paths paths') :
    SameMembers ((mk paths policy).entries d) ((mk paths' policy).entries d) :=
  h.flatMap fun p ↦ Entry.ofPath p d

/-- **The document does not depend on the order of the paths**, nor on how often they stand
there. -/
theorem written_of_sameMembers (hd : d.WellFormed) (h : SameMembers paths paths') :
    (mk paths policy).written d context = (mk paths' policy).written d context := by
  have hes : SameMembers ((mk paths policy).entries d) ((mk paths' policy).entries d) :=
    entries_of_sameMembers h
  exact ((rewritten_written hd).of_sameMembers hes).unique hd (rewritten_written hd)

/-- Resolutions are alike in what their documents and failures are. -/
theorem resolve_alike
    (hwritten : (mk paths policy).written d context = (mk paths' policy).written d context)
    (hlisted : listed ((mk paths policy).failures d context)
      ((mk paths' policy).failures d context))
    (hnil : (mk paths policy).failures d context = [] ↔
      (mk paths' policy).failures d context = []) :
    Alike (Resolution.Alike listed) listed ((mk paths policy).resolve d context)
      ((mk paths' policy).resolve d context) := by
  rw [resolve, resolve]
  by_cases hfs : (mk paths policy).failures d context = []
  · have hfs' := hnil.mp hfs
    rw [hfs, hfs'] at hlisted
    rw [if_pos hfs, if_pos hfs']
    exact .ok ⟨hwritten, hlisted⟩
  · have hfs' := mt hnil.mpr hfs
    rw [if_neg hfs, if_neg hfs']
    rcases policy with _ | _
    · exact .evaluation hlisted
    · exact .ok ⟨hwritten, hlisted⟩

theorem names_alike (h : SameMembers paths paths') (segments : List String) :
    Alike SameMembers SameMembers ((mk paths policy).names d segments)
      ((mk paths' policy).names d segments) := by
  have hes : SameMembers ((mk paths policy).entries d) ((mk paths' policy).entries d) :=
    entries_of_sameMembers h
  have hfound : SameMembers
      (((mk paths policy).entries d).flatMap fun e ↦ (e.names segments).1)
      (((mk paths' policy).entries d).flatMap fun e ↦ (e.names segments).1) := hes.flatMap _
  have hfailures : SameMembers
      (((mk paths policy).entries d).flatMap fun e ↦ (e.names segments).2)
      (((mk paths' policy).entries d).flatMap fun e ↦ (e.names segments).2) := hes.flatMap _
  simp only [names, List.flatMap_map]
  by_cases hfs : (((mk paths policy).entries d).flatMap fun e ↦ (e.names segments).2) = []
  · rw [if_pos hfs, if_pos (hfailures.eq_nil_iff.mp hfs)]
    exact .ok hfound.distinct
  · rw [if_neg hfs, if_neg (mt hfailures.eq_nil_iff.mpr hfs)]
    exact .validation hfailures

/-- **The order and the repetition of env paths do not matter.** Two resolvers of one policy whose
env paths are the same as a set resolve a manifest to the same document, or both refuse it; either
way the failures, or the warnings, are the same as a set. If the one's paths are a permutation of
the other's, so are the failures. The names that are found in a manifest are the same as a set, or
both resolvers find it defective. -/
theorem order_of_paths_irrelevant (hd : d.WellFormed) (h : SameMembers paths paths')
    (policy : Policy) (context : Document) :
    Alike (Resolution.Alike SameMembers) SameMembers ((mk paths policy).resolve d context)
        ((mk paths' policy).resolve d context) ∧
      (paths.Perm paths' → Alike (Resolution.Alike List.Perm) List.Perm
        ((mk paths policy).resolve d context) ((mk paths' policy).resolve d context)) ∧
      ∀ segments, Alike SameMembers SameMembers ((mk paths policy).names d segments)
        ((mk paths' policy).names d segments) := by
  have hes : SameMembers ((mk paths policy).entries d) ((mk paths' policy).entries d) :=
    entries_of_sameMembers h
  have hfailures : SameMembers ((mk paths policy).failures d context)
      ((mk paths' policy).failures d context) := hes.flatMap _
  have hwritten : (mk paths policy).written d context = (mk paths' policy).written d context :=
    written_of_sameMembers hd h
  refine ⟨resolve_alike hwritten hfailures hfailures.eq_nil_iff, fun hperm ↦ ?_, names_alike h⟩
  have hentries : ((mk paths policy).entries d).Perm ((mk paths' policy).entries d) :=
    hperm.flatMap_right _
  exact resolve_alike hwritten (hentries.flatMap_right _) hfailures.eq_nil_iff

set_option maxRecDepth 4000 in
/-- A path into an entry of another one may come before that path, after it, or both. -/
theorem order_of_paths_irrelevant_nested :
    nested.WellFormed ∧ SameMembers ["a.b", "a", "a.b"] ["a", "a.b"] ∧
      ["a.b", "a"].Perm ["a", "a.b"] ∧
      Alike (Resolution.Alike SameMembers) SameMembers
        ((mk ["a.b", "a", "a.b"] .preserve).resolve nested (object [("x", string "1")]))
        (.ok ⟨object [("a", object [("b", object [("c", string "1")])])], [.notText "a.b"]⟩) ∧
      Alike (Resolution.Alike List.Perm) List.Perm
        ((mk ["a.b", "a"] .fail).resolve nested (object [("x", string "1")]))
        (.error (.evaluation [.notText "a.b"])) ∧
      Alike SameMembers SameMembers ((mk ["a.b", "a.b"] .fail).names nested []) (.ok ["x"]) := by
  have hrepeated : SameMembers ["a.b", "a", "a.b"] ["a", "a.b"] := by decide
  have hsingle : SameMembers ["a.b", "a.b"] ["a.b"] := by decide
  have hperm : ["a.b", "a"].Perm ["a", "a.b"] := .swap _ _ _
  refine ⟨wellFormed_nested, hrepeated, hperm, ?_, ?_, ?_⟩
  · have hresolve : (mk ["a", "a.b"] .preserve).resolve nested (object [("x", string "1")]) =
        .ok ⟨object [("a", object [("b", object [("c", string "1")])])], [.notText "a.b"]⟩ := by
      cbv
    rw [← hresolve]
    exact (order_of_paths_irrelevant wellFormed_nested hrepeated .preserve _).1
  · have hresolve : (mk ["a", "a.b"] .fail).resolve nested (object [("x", string "1")]) =
        .error (.evaluation [.notText "a.b"]) := by
      cbv
    rw [← hresolve]
    exact (order_of_paths_irrelevant wellFormed_nested (fun _ ↦ hperm.mem_iff) .fail _).2.1 hperm
  · have hnames : (mk ["a.b"] .fail).names nested [] = .ok ["x"] := by cbv
    rw [← hnames]
    exact (order_of_paths_irrelevant wellFormed_nested hsingle .fail .null).2.2 []

end Settings

end Interpolation
