import Mathlib
import Interpolation.Manifest.Resolver
import Interpolation.Proofs.Manifest.Entry
import Interpolation.Proofs.Template.Source

/-!
# Resolving rewrites the entries and nothing else

A resolved manifest has the containers of the original. An entry with a text that renders, a
boolean or a number is replaced by its text, and every other scalar is kept.

## Why overlapping paths do no harm

The entries are read off the original while their pointers are followed in a document that is
already partly rewritten. Both agree as far as it matters, because only scalars are ever replaced,
and by scalars: all places stay what they are, so a pointer leads where it led in the original. An
entry that several paths reach is written several times, but as the same text, since the text
depends on the value and the context only. `Rewritten` is this invariant for the entries that were
already dealt with.
-/

namespace Interpolation

/-! ## What a value becomes -/

/-- The text that takes the place of a value in a resolved manifest: a text is rendered, a boolean
or a number is written out. -/
inductive Rewrites (context : Document) : Document → String → Prop where
  | string {s t : String} (h : (Template.ofString s).render context = .ok t) :
      Rewrites context (.string s) t
  | bool (b : Bool) : Rewrites context (.bool b) (if b then "true" else "false")
  | number (n : Number) : Rewrites context (.number n) n.text

namespace Entry

variable {context d d' : Document} {e : Entry} {t : String}

/-- The replacement of an entry depends on its value, not on its place. -/
theorem replacement_fst_congr {e' : Entry} (h : e.value = e'.value) :
    (e.replacement context).1 = (e'.replacement context).1 := by
  simp only [replacement, h]
  cases e'.value with
  | string text =>
    simp only
    split
    · rfl
    · split <;> rfl
  | _ => rfl

/-- A replacement is the text that the value becomes. -/
theorem rewrites_of_replacement (h : (e.replacement context).1 = some t) :
    Rewrites context e.value t := by
  rw [replacement] at h
  split at h
  · rename_i text hv
    simp only at h
    split at h
    · cases h
    · split at h
      · rename_i herr
        cases h
        rw [hv]
        exact .string (by rw [Template.render, if_pos herr])
      · cases h
  · rename_i b hv
    cases h
    rw [hv]
    exact .bool b
  · rename_i n hv
    cases h
    rw [hv]
    exact .number n
  · cases h

/-- The text that a value becomes is its replacement, unless it is the value already. -/
theorem replacement_of_rewrites (h : Rewrites context e.value t) :
    (e.replacement context).1 = some t ∨
      (e.replacement context).1 = none ∧ e.value = .string t := by
  generalize hv : e.value = v at h
  rw [replacement, hv]
  cases h with
  | @string s t h =>
    cases hspans : (Template.ofString s).hasSpans with
    | false =>
      -- The text is its own rendering, and nothing is written.
      rw [Template.render_of_hasSpans_eq_false hspans, Template.source_ofString] at h
      cases h
      exact .inr ⟨by simp [hspans], rfl⟩
    | true =>
      rw [Template.render] at h
      split at h
      · rename_i herr
        cases h
        exact .inl (by simp [hspans, herr])
      · cases h
  | bool b => exact .inl rfl
  | number n => exact .inl rfl

theorem outline_value_of_replacement (h : (e.replacement context).1 = some t) :
    e.value.outline = .scalar := by
  have hb := rewrites_of_replacement h
  generalize e.value = v at hb
  cases hb <;> rfl

end Entry

/-! ## The invariant -/

open Document

/-- `d'` is `d` with the entries `es` rewritten. -/
structure Rewritten (context : Document) (es : List Entry) (d d' : Document) : Prop where
  outline_eq : ∀ l, (d'.get? l).map outline = (d.get? l).map outline
  written : ∀ e ∈ es, ∀ t, (e.replacement context).1 = some t →
    d'.get? e.location = some (.string t)
  kept : ∀ l v, d.get? l = some v → v.outline = .scalar →
    (∀ e ∈ es, e.location = l → (e.replacement context).1 = none) → d'.get? l = some v

namespace Rewritten

variable {context d d' : Document} {e : Entry} {es : List Entry} {t : String}

theorem nil (context d : Document) : Rewritten context [] d d where
  outline_eq _ := rfl
  written _ he := by cases he
  kept _ _ hv _ _ := hv

/-- Where the original has a scalar, so has the rewritten document. -/
theorem exists_scalar (h : Rewritten context es d d') {l : List Step} {v : Document}
    (hv : d.get? l = some v) (hs : v.outline = .scalar) :
    ∃ v', d'.get? l = some v' ∧ v'.outline = .scalar := by
  have hl := h.outline_eq l
  rw [hv, Option.map_some, hs] at hl
  exact Option.map_eq_some_iff.mp hl

/-- An entry without a replacement changes nothing. -/
theorem skip (h : Rewritten context es d d') (hr : (e.replacement context).1 = none) :
    Rewritten context (es ++ [e]) d d' where
  outline_eq := h.outline_eq
  written e' he' t ht := by
    rcases List.mem_append.mp he' with he' | he'
    · exact h.written e' he' t ht
    · rw [List.mem_singleton.mp he', hr] at ht
      cases ht
  kept l v hv hs hnone :=
    h.kept l v hv hs fun e' he' ↦ hnone e' (List.mem_append_left _ he')

/-- A replacement at the place of an entry keeps what was written before: an entry at the same place
has the same value, hence the same replacement. -/
theorem put {d'' : Document} (h : Rewritten context es d d')
    (hes : ∀ e' ∈ es, d.get? e'.location = some e'.value) (he : d.get? e.location = some e.value)
    (hr : (e.replacement context).1 = some t)
    (hp : Patched e.location (.string t) d' d'') : Rewritten context (es ++ [e]) d d'' where
  outline_eq l := (hp.outline_eq l).trans (h.outline_eq l)
  written e' he' t' ht' := by
    rcases List.mem_append.mp he' with he' | he'
    · by_cases hl : e'.location = e.location
      -- The entry was written before, as the same text.
      · have hvalue : e'.value = e.value := by
          have hsame := (hes e' he').symm.trans (hl ▸ he)
          exact Option.some.inj hsame
        rw [Entry.replacement_fst_congr hvalue, hr] at ht'
        cases ht'
        rw [hl]
        exact hp.there
      · exact hp.elsewhere _ _ hl rfl (h.written e' he' t' ht')
    · rw [List.mem_singleton.mp he', hr] at ht'
      cases ht'
      rw [List.mem_singleton.mp he']
      exact hp.there
  kept l v hv hs hnone := by
    -- The entry that is written now would have its replacement at `l`.
    have hl : l ≠ e.location := by
      rintro rfl
      rw [hnone e (List.mem_append_right _ List.mem_cons_self) rfl] at hr
      cases hr
    have hkept := h.kept l v hv hs fun e' he' ↦ hnone e' (List.mem_append_left _ he')
    exact hp.elsewhere l v hl hs hkept

/-- An entry is written at its place, and nowhere else. -/
theorem patched_write (h : Rewritten context es d d') (he : d.get? e.location = some e.value)
    (hr : (e.replacement context).1 = some t) :
    Patched e.location (.string t) d' (e.write context d') := by
  obtain ⟨v', hv', hs'⟩ := h.exists_scalar he (Entry.outline_value_of_replacement hr)
  have hnew : (Document.string t).outline = .scalar := rfl
  obtain ⟨d'', hd'', hp⟩ := exists_replaceAt?_patched hnew hs' hv'
  rw [Entry.write, hr]
  simp only [Entry.pointer, hd'', Option.getD_some]
  exact hp

/-- **One entry.** -/
theorem write (h : Rewritten context es d d')
    (hes : ∀ e' ∈ es, d.get? e'.location = some e'.value) (he : d.get? e.location = some e.value) :
    Rewritten context (es ++ [e]) d (e.write context d') := by
  cases hr : (e.replacement context).1 with
  | none =>
    rw [Entry.write, hr]
    exact h.skip hr
  | some t => exact h.put hes he hr (h.patched_write he hr)

/-- **All entries, one after another.** -/
theorem foldl_write (h : Rewritten context es d d') {more : List Entry}
    (hes : ∀ e ∈ es ++ more, d.get? e.location = some e.value) :
    Rewritten context (es ++ more) d (more.foldl (Entry.write context) d') := by
  induction more generalizing es d' with
  | nil =>
    rw [List.append_nil]
    exact h
  | cons e more ih =>
    have hstep := h.write (fun e' he' ↦ hes e' (List.mem_append_left _ he'))
      (hes e (List.mem_append_right _ List.mem_cons_self))
    have hmore := ih hstep fun e' he' ↦ hes e' (by simpa using he')
    rwa [List.append_assoc, List.singleton_append] at hmore

/-- Entries at one place have one replacement. -/
theorem get?_location_of_rewrites (h : Rewritten context es d d')
    (hes : ∀ e ∈ es, d.get? e.location = some e.value) (he : e ∈ es)
    (ht : Rewrites context e.value t) : d'.get? e.location = some (.string t) := by
  rcases Entry.replacement_of_rewrites ht with hr | ⟨hr, hvalue⟩
  · exact h.written e he t hr
  -- The value is its text already, and no other entry replaces it.
  · refine h.kept _ _ (hvalue ▸ hes e he) rfl fun e' he' hl ↦ ?_
    have hsame : e'.value = e.value := Option.some.inj ((hes e' he').symm.trans (hl ▸ hes e he))
    rw [Entry.replacement_fst_congr hsame, hr]

end Rewritten

namespace Settings

variable {s : Settings} {d context : Document}

theorem rewritten_written (hd : d.WellFormed) :
    Rewritten context (s.entries d) d (s.written d context) := by
  have hes : ∀ e ∈ s.entries d, d.get? e.location = some e.value :=
    fun _ he ↦ Entry.get?_location hd he
  exact Rewritten.foldl_write (.nil context d) hes

theorem document_of_resolve {r : Resolution} (h : s.resolve d context = .ok r) :
    r.document = s.written d context := by
  rw [resolve] at h
  split at h
  · cases h
    rfl
  · split at h
    · cases h
    · cases h
      rfl

theorem rewritten_of_resolve {r : Resolution} (hd : d.WellFormed)
    (h : s.resolve d context = .ok r) : Rewritten context (s.entries d) d r.document := by
  rw [document_of_resolve h]
  exact rewritten_written hd

/-- **Exactly the entries are rewritten.** A resolved manifest has the containers of the original at
every place. At the place of an entry it has the text that the entry's value becomes, and where
there is no such entry, the original's own scalar. -/
theorem resolve_rewrites_entries {r : Resolution} (hd : d.WellFormed)
    (h : s.resolve d context = .ok r) :
    (∀ l, (r.document.get? l).map outline = (d.get? l).map outline) ∧
      ∀ l v, d.get? l = some v → v.outline = .scalar →
        (∀ e ∈ s.entries d, e.location = l → ∀ t, Rewrites context e.value t →
          r.document.get? l = some (.string t)) ∧
        ((∀ e ∈ s.entries d, e.location = l → ∀ t, ¬ Rewrites context e.value t) →
          r.document.get? l = some v) := by
  have hrew : Rewritten context (s.entries d) d r.document := rewritten_of_resolve hd h
  have hes : ∀ e ∈ s.entries d, d.get? e.location = some e.value :=
    fun _ he ↦ Entry.get?_location hd he
  refine ⟨hrew.outline_eq, fun l v hv hs ↦ ⟨?_, fun hnone ↦ ?_⟩⟩
  · rintro e he rfl t ht
    exact hrew.get?_location_of_rewrites hes he ht
  · refine hrew.kept l v hv hs fun e he hl ↦ ?_
    cases hr : (e.replacement context).1 with
    | none => rfl
    | some t => exact absurd (Entry.rewrites_of_replacement hr) (hnone e he hl t)

set_option maxRecDepth 4000 in
/-- A text below an env path is rewritten, and a boolean beside the env map is kept. -/
theorem resolve_rewrites_entries_beside_bool :
    ∃ r, (Settings.mk ["env"] .fail).resolve
        (object [("env", object [("A", string "${{x}}")]), ("on", .bool true)])
        (object [("x", string "1")]) = .ok r ∧
      r.document.get? [.key "env", .key "A"] = some (string "1") ∧
      r.document.get? [.key "on"] = some (.bool true) := by
  have hd : WellFormed (object [("env", object [("A", string "${{x}}")]), ("on", .bool true)]) := by
    refine .object (by decide) fun f hf ↦ ?_
    rcases List.mem_cons.mp hf with rfl | hf
    · refine .object (by decide) fun f hf ↦ ?_
      cases List.mem_singleton.mp hf
      exact .string _
    · cases List.mem_singleton.mp hf
      exact .bool true
  have hentries : (Settings.mk ["env"] .fail).entries
      (object [("env", object [("A", string "${{x}}")]), ("on", .bool true)]) =
        [⟨[.key "env"], "A", string "${{x}}"⟩] := by
    cbv
  have hresolve : (Settings.mk ["env"] .fail).resolve
      (object [("env", object [("A", string "${{x}}")]), ("on", .bool true)])
      (object [("x", string "1")]) =
        .ok ⟨object [("env", object [("A", string "1")]), ("on", .bool true)], []⟩ := by
    cbv
  have hrender : Rewrites (object [("x", string "1")]) (string "${{x}}") "1" := .string (by cbv)
  obtain ⟨-, hplaces⟩ := resolve_rewrites_entries hd hresolve
  rw [hentries] at hplaces
  refine ⟨_, hresolve, ?_, ?_⟩
  · exact (hplaces [.key "env", .key "A"] _ rfl rfl).1 _ List.mem_cons_self rfl "1" hrender
  · refine (hplaces [.key "on"] _ rfl rfl).2 fun e he hl ↦ ?_
    rw [List.mem_singleton.mp he] at hl
    exact absurd hl (by decide)

end Settings

end Interpolation
