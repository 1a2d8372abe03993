import Interpolation.Proofs.Manifest.Extension
import Interpolation.Proofs.Manifest.Listing

/-!
# Resolved manifests are stable

A resolved manifest has its entries where the original has them, and all of them are texts. If no
span has come in with the texts of values, then there is nothing left to resolve: resolving once
more gives the same manifest, in any context and under either policy, and no names are found in it.

## Why entries neither appear nor go away

Which places are entries of a path can be told from the outlines of the documents on the way: an
entry is a key of an object, and the way to the object spells the path. Resolving keeps all
outlines, whatever paths overlap. That the entries also stay in order needs no second walk along the
path, since the places of entries are listed in the order of the document, and a list in strict
order is determined by its members.
-/

namespace Interpolation

open Text Document

/-! ## Places of entries -/

namespace Document

/-- The keys of an object; nothing else has any. -/
def Outline.keys : Outline → List String
  | object ks => ks
  | _ => []

theorem map_fst_fields (d : Document) : d.fields.map Prod.fst = d.outline.keys := by
  cases d <;> rfl

theorem Ahead.asymm {l m : List Step} (h : Ahead l m) : ¬ Ahead m l := by
  induction h with
  | index h l m =>
    intro h'
    cases h' with
    | index h' => exact Nat.lt_asymm h h'
    | cons s h' => exact Nat.lt_irrefl _ h
  | key h l m =>
    intro h'
    cases h' with
    | key h' => exact String.lt_asymm h h'
    | cons s h' => exact String.lt_irrefl _ h
  | cons s h ih =>
    intro h'
    cases h' with
    | index h' => exact Nat.lt_irrefl _ h'
    | key h' => exact String.lt_irrefl _ h'
    | cons _ h' => exact ih h'

end Document

namespace Entry

variable {d d' : Document} {path : String} {paths : List String}

/-- **The places of a path's entries**, as they can be told from outlines. -/
theorem mem_map_location_iff {l : List Step} : l ∈ (ofPath path d).map location ↔
    ∃ steps key, l = steps ++ [.key key] ∧ Spells (dotted path) steps ∧
      ∃ o, (d.get? steps).map outline = some o ∧ key ∈ o.keys := by
  rw [List.mem_map]
  constructor
  · rintro ⟨e, he, rfl⟩
    obtain ⟨hspells, env, henv, hfield⟩ := mem_ofPath_iff.mp he
    refine ⟨e.steps, e.key, rfl, hspells, env.outline, by rw [henv, Option.map_some], ?_⟩
    rw [← map_fst_fields]
    exact List.mem_map_of_mem hfield
  · rintro ⟨steps, key, rfl, hspells, o, ho, hkey⟩
    obtain ⟨env, henv, rfl⟩ := Option.map_eq_some_iff.mp ho
    rw [← map_fst_fields] at hkey
    obtain ⟨⟨k, v⟩, hfield, rfl⟩ := List.mem_map.mp hkey
    exact ⟨⟨steps, k, v⟩, mem_ofPath_iff.mpr ⟨hspells, env, henv, hfield⟩, rfl⟩

/-- **Where the outlines are the same, the entries are at the same places**, in the same order. -/
theorem map_location_ofPath (hd : d.WellFormed) (hd' : d'.WellFormed)
    (h : ∀ l, (d'.get? l).map outline = (d.get? l).map outline) (path : String) :
    (ofPath path d').map location = (ofPath path d).map location := by
  have hsorted : ((ofPath path d).map location).Pairwise Ahead :=
    List.pairwise_map.mpr (pairwise_location hd path)
  have hsorted' : ((ofPath path d').map location).Pairwise Ahead :=
    List.pairwise_map.mpr (pairwise_location hd' path)
  have hmem : ∀ l, l ∈ (ofPath path d').map location ↔ l ∈ (ofPath path d).map location := by
    intro l
    simp only [mem_map_location_iff, h]
  have hperm : ((ofPath path d').map location).Perm ((ofPath path d).map location) :=
    (List.perm_ext_iff_of_nodup (hsorted'.imp Ahead.ne) (hsorted.imp Ahead.ne)).mpr hmem
  exact hperm.eq_of_pairwise (fun l m _ _ hlm hml ↦ absurd hml hlm.asymm) hsorted' hsorted

theorem map_location_ofPaths (hd : d.WellFormed) (hd' : d'.WellFormed)
    (h : ∀ l, (d'.get? l).map outline = (d.get? l).map outline) (paths : List String) :
    (ofPaths paths d').map location = (ofPaths paths d).map location := by
  rw [ofPaths, ofPaths, List.map_flatMap, List.map_flatMap]
  exact congrArg (List.flatMap · paths) (funext (map_location_ofPath hd hd' h))

end Entry

/-! ## Texts without spans -/

namespace Piece

variable {cs : List Char}

theorem findSpan?_eq_none_iff : findSpan? cs = none ↔ ∀ u v, cs = u ++ v → ¬ Opens v := by
  constructor
  · exact fun h u v ↦ not_opens_of_findSpan?_eq_none h
  · intro h
    rw [Option.eq_none_iff_forall_ne_some]
    rintro ⟨before, body, rest⟩ hfind
    obtain ⟨hcs, hbody⟩ := findSpan?_eq hfind
    rw [List.append_assoc] at hcs
    exact h _ _ hcs ⟨body, rest, rfl, hbody⟩

end Piece

namespace Template

/-- No span begins anywhere in the text. -/
def SpanFree (s : String) : Prop := ∀ u v, s.toList = u ++ v → ¬ Piece.Opens v

theorem spans_of_spanFree {s : String} (h : SpanFree s) : (ofString s).spans = [] := by
  have hcut := Piece.cut_of_findSpan?_eq_none (Piece.findSpan?_eq_none_iff.mpr h)
  rw [spans, ofString, hcut, Piece.plain?]
  split <;> rfl

end Template

namespace Entry

variable {e : Entry} {s : String}

/-- There is nothing to replace in a text without spans, and nothing wrong with it. -/
theorem replacement_of_spanFree (hvalue : e.value = .string s) (h : Template.SpanFree s)
    (context : Document) : e.replacement context = (none, []) := by
  have hspans : (Template.ofString s).hasSpans = false := by
    rw [Template.hasSpans, Template.spans_of_spanFree h]
    rfl
  rw [replacement, hvalue]
  simp [hspans]

theorem names_of_spanFree (hvalue : e.value = .string s) (h : Template.SpanFree s)
    (segments : List String) : e.names segments = ([], []) := by
  rw [names, hvalue]
  simp [Template.names, Template.syntaxErrors, Template.expressions, Template.spans_of_spanFree h,
    distinct]

/-- Entries that have nothing to replace leave the document as it is. -/
theorem foldl_write_eq_self {es : List Entry} {context : Document}
    (h : ∀ e ∈ es, (e.replacement context).1 = none) (d : Document) :
    es.foldl (write context) d = d := by
  induction es with
  | nil => rfl
  | cons e es ih =>
    have hwrite : e.write context d = d := by rw [write, h e List.mem_cons_self]
    rw [List.foldl_cons, hwrite]
    exact ih fun e' he' ↦ h e' (List.mem_cons_of_mem _ he')

end Entry

namespace Settings

variable {paths : List String} {d context : Document} {r : Resolution}

/-! ## Resolving once more -/

/-- Where every entry is a text without spans, there is nothing to resolve. -/
theorem resolve_of_spanFree
    (h : ∀ e ∈ Entry.ofPaths paths d, ∃ t, e.value = .string t ∧ Template.SpanFree t)
    (policy : Policy) (context : Document) :
    (Settings.mk paths policy).resolve d context = .ok ⟨d, []⟩ := by
  have hreplacement : ∀ e ∈ Entry.ofPaths paths d, e.replacement context = (none, []) := by
    intro e he
    obtain ⟨t, hvalue, ht⟩ := h e he
    exact Entry.replacement_of_spanFree hvalue ht context
  have hfailures : (Settings.mk paths policy).failures d context = [] :=
    List.flatMap_eq_nil_iff.mpr fun e he ↦ by rw [hreplacement e he]
  have hwritten : (Settings.mk paths policy).written d context = d :=
    Entry.foldl_write_eq_self (fun e he ↦ by rw [hreplacement e he]) d
  rw [resolve, if_pos hfailures, hwritten]

/-- Where every entry is a text without spans, there are no names to find. -/
theorem names_of_spanFree
    (h : ∀ e ∈ Entry.ofPaths paths d, ∃ t, e.value = .string t ∧ Template.SpanFree t)
    (policy : Policy) (segments : List String) :
    (Settings.mk paths policy).names d segments = .ok [] := by
  have hnames : ∀ e ∈ Entry.ofPaths paths d, e.names segments = ([], []) := by
    intro e he
    obtain ⟨t, hvalue, ht⟩ := h e he
    exact Entry.names_of_spanFree hvalue ht segments
  have hfailures :
      (((Settings.mk paths policy).entries d).flatMap fun e ↦ (e.names segments).2) = [] :=
    List.flatMap_eq_nil_iff.mpr fun e he ↦ by rw [hnames e he]
  have hfound :
      (((Settings.mk paths policy).entries d).flatMap fun e ↦ (e.names segments).1) = [] :=
    List.flatMap_eq_nil_iff.mpr fun e he ↦ by rw [hnames e he]
  simp only [names, List.flatMap_map]
  rw [if_pos hfailures, hfound]
  rfl

theorem map_location_of_resolve (hd : d.WellFormed)
    (h : (Settings.mk paths .fail).resolve d context = .ok r) :
    (Entry.ofPaths paths r.document).map Entry.location =
      (Entry.ofPaths paths d).map Entry.location := by
  have hrew : Rewritten context (Entry.ofPaths paths d) d r.document := rewritten_of_resolve hd h
  exact Entry.map_location_ofPaths hd (wellFormed_of_resolve hd h) hrew.outline_eq paths

/-- Every value that can be resolved becomes a text. -/
theorem exists_string_of_resolve (hd : d.WellFormed)
    (h : (Settings.mk paths .fail).resolve d context = .ok r) :
    ∀ e ∈ Entry.ofPaths paths r.document, ∃ t, e.value = .string t := by
  intro e he
  have hrew : Rewritten context (Entry.ofPaths paths d) d r.document := rewritten_of_resolve hd h
  -- The entry is at the place of an entry of the original.
  obtain ⟨e₀, he₀, hlocation⟩ : ∃ e₀ ∈ Entry.ofPaths paths d, e₀.location = e.location := by
    rw [← List.mem_map, ← map_location_of_resolve hd h]
    exact List.mem_map_of_mem he
  have hes : ∀ e ∈ Entry.ofPaths paths d, d.get? e.location = some e.value :=
    fun _ he ↦ Entry.get?_location hd he
  obtain ⟨t, -, ht⟩ := (hrew.preserved hd hes).rendered e₀ he₀ (failures_of_resolve_eq_ok h e₀ he₀)
  rw [hlocation, Entry.get?_location (wellFormed_of_resolve hd h) he] at ht
  exact ⟨t, Option.some.inj ht⟩

theorem warnings_of_resolve (h : (Settings.mk paths .fail).resolve d context = .ok r) :
    r.warnings = [] := by
  rw [resolve] at h
  split at h
  · rw [← Except.ok.inj h]
  · cases h

/-- **A resolved manifest is stable.** Its entries are those of the original, with the same paths
and pointers and in the same order, and all their values are texts. If no span begins anywhere in
these texts, then resolving the manifest once more gives it again, in any context and under either
policy, and it has no names below any prefix. -/
theorem resolved_is_stable (hd : d.WellFormed)
    (h : (Settings.mk paths .fail).resolve d context = .ok r) :
    ((Entry.ofPaths paths r.document).map fun e ↦ (e.path, e.pointer)) =
        ((Entry.ofPaths paths d).map fun e ↦ (e.path, e.pointer)) ∧
      (∀ e ∈ Entry.ofPaths paths r.document, ∃ t, e.value = .string t) ∧
      ((∀ e ∈ Entry.ofPaths paths r.document, ∀ t, e.value = .string t → Template.SpanFree t) →
        ∀ policy, (∀ c, (Settings.mk paths policy).resolve r.document c = .ok r) ∧
          ∀ segments, (Settings.mk paths policy).names r.document segments = .ok []) := by
  have hstring := exists_string_of_resolve hd h
  refine ⟨?_, hstring, fun hfree policy ↦ ?_⟩
  · have hplaces := congrArg (List.map fun l : List Step ↦
      (".".intercalate (l.map Step.display), Pointer.ofSteps l)) (map_location_of_resolve hd h)
    rwa [List.map_map, List.map_map] at hplaces
  · have hvalues : ∀ e ∈ Entry.ofPaths paths r.document,
        ∃ t, e.value = .string t ∧ Template.SpanFree t := by
      intro e he
      obtain ⟨t, ht⟩ := hstring e he
      exact ⟨t, ht, hfree e he t ht⟩
    have hr : r = ⟨r.document, []⟩ := by rw [← warnings_of_resolve h]
    refine ⟨fun c ↦ ?_, names_of_spanFree hvalues policy⟩
    rw [resolve_of_spanFree hvalues policy c, ← hr]

set_option maxRecDepth 4000 in
/-- A text with a span and a number become texts without any, and these are kept from then on. -/
theorem resolved_is_stable_beside_number :
    ∃ r, (Settings.mk ["env"] .fail).resolve
        (object [("env", object [("A", string "x-${{x}}"), ("N", number (.integer 5))])])
        (object [("x", string "1")]) = .ok r ∧
      r.document = object [("env", object [("A", string "x-1"), ("N", string "5")])] ∧
      (Settings.mk ["env"] .preserve).resolve r.document null = .ok r ∧
      (Settings.mk ["env"] .preserve).names r.document [] = .ok [] := by
  have hd : WellFormed
      (object [("env", object [("A", string "x-${{x}}"), ("N", number (.integer 5))])]) := by
    refine .singleton (.object (by decide) fun f hf ↦ ?_)
    rcases List.mem_cons.mp hf with rfl | hf
    · exact .string _
    · cases List.mem_singleton.mp hf
      exact .number _
  have hresolve : (Settings.mk ["env"] .fail).resolve
      (object [("env", object [("A", string "x-${{x}}"), ("N", number (.integer 5))])])
      (object [("x", string "1")]) =
        .ok ⟨object [("env", object [("A", string "x-1"), ("N", string "5")])], []⟩ := by
    cbv
  have hentries : Entry.ofPaths ["env"]
      (object [("env", object [("A", string "x-1"), ("N", string "5")])]) =
        [⟨[.key "env"], "A", string "x-1"⟩, ⟨[.key "env"], "N", string "5"⟩] := by
    cbv
  have hfree : ∀ e ∈ Entry.ofPaths ["env"]
      (object [("env", object [("A", string "x-1"), ("N", string "5")])]),
        ∀ t, e.value = .string t → Template.SpanFree t := by
    intro e he t ht
    refine Piece.findSpan?_eq_none_iff.mp ?_
    rw [hentries] at he
    rcases List.mem_cons.mp he with rfl | he
    · cases ht
      cbv
    · cases List.mem_singleton.mp he
      cases ht
      cbv
  obtain ⟨-, -, hstable⟩ := resolved_is_stable hd hresolve
  obtain ⟨hagain, hnames⟩ := hstable hfree .preserve
  exact ⟨_, hresolve, rfl, hagain null, hnames []⟩

end Settings

end Interpolation
