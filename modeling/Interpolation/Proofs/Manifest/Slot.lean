import Interpolation.Proofs.Document.Addressing
import Interpolation.Proofs.Manifest.Policy

/-!
# No replacement is dropped or misplaced

The entries of a manifest are found once, in the original, and written one after another through
their pointers into a document that changes with every entry. A pointer that leads nowhere would be
passed over in silence. This never happens: in front of each entry, its pointer leads to a slot of
the document as it is then.

The slot holds the entry's value, or the text that an entry at the same place was replaced by. There
is a third case. An array or an object is never replaced itself, but entries of another path may lie
inside it, and those that come first are written already.
-/

namespace Interpolation

open Document

/-- What may lie at the place of the entry `e` when the entries `done` are written. -/
inductive Slot (context : Document) (done : List Entry) (e : Entry) : Document → Prop where
  /-- The value as it was. -/
  | original : Slot context done e e.value
  /-- The text of an entry at the same place. -/
  | replaced {e' : Entry} {t : String} (he' : e' ∈ done) (hl : e'.location = e.location)
      (hr : (e'.replacement context).1 = some t) : Slot context done e (.string t)
  /-- An array or an object with the texts of entries inside it; the rest of it is as it was. -/
  | inside {v : Document} (hvalue : e.value.outline ≠ .scalar)
      (hsome : ∃ e' ∈ done, (e'.replacement context).1 ≠ none ∧ e.location <+: e'.location)
      (hwritten : ∀ e' ∈ done, ∀ l t, e'.location = e.location ++ l →
        (e'.replacement context).1 = some t → v.get? l = some (.string t))
      (hkept : SameBut (fun l ↦ ∃ e' ∈ done, (e'.replacement context).1 ≠ none ∧
        e'.location = e.location ++ l) e.value v) : Slot context done e v

namespace Rewritten

variable {context d d' : Document} {e : Entry} {done : List Entry}

/-- **The slot of an entry.** -/
theorem exists_slot (h : Rewritten context done d d') (hd : d.WellFormed)
    (hes : ∀ e' ∈ done, d.get? e'.location = some e'.value)
    (he : d.get? e.location = some e.value) :
    ∃ v, d'.get? e.location = some v ∧ Slot context done e v := by
  obtain ⟨v, hv, hkept⟩ := h.sameBut_replaced.exists_below he
  have hwritten : ∀ e' ∈ done, ∀ l t, e'.location = e.location ++ l →
      (e'.replacement context).1 = some t → v.get? l = some (.string t) := by
    intro e' he' l t hl hr
    have hthere := h.written e' he' t hr
    rwa [hl, get?_append, hv, Option.bind_some] at hthere
  refine ⟨v, hv, ?_⟩
  by_cases hsome : ∃ e' ∈ done, (e'.replacement context).1 ≠ none ∧ e.location <+: e'.location
  · obtain ⟨e', he', hr, l, hl⟩ := hsome
    obtain ⟨t, ht⟩ := Option.ne_none_iff_exists'.mp hr
    have htext := hwritten e' he' l t hl.symm ht
    by_cases hvalue : e.value.outline = .scalar
    -- Nothing lies inside a scalar, so the other entry is at the same place.
    · have hbelow := hes e' he'
      rw [← hl, get?_append, he, Option.bind_some] at hbelow
      rcases l with _ | ⟨s, l⟩
      · rw [List.append_nil] at hl
        rw [Option.some.inj htext]
        exact .replaced he' hl.symm ht
      · rw [get?, child?_of_scalar hvalue] at hbelow
        cases hbelow
    · exact .inside hvalue ⟨e', he', hr, l, hl⟩ hwritten hkept
  · have heq : v = e.value := by
      refine hkept.eq (hd.get he) ?_
      rintro l ⟨e', he', hr, hl⟩
      exact hsome ⟨e', he', hr, l, hl.symm⟩
    rw [heq]
    exact .original

end Rewritten

namespace Settings

variable {d : Document}

/-- **No replacement is dropped or misplaced.** Pointers are written and read by the replacements
that the format asks for, one after another. The pointer of an entry addresses its value in the
manifest, and the pointers of two entries are equal only if their places are. Whenever an entry's
turn comes, its pointer leads to a slot of the document as it is then, and if the entry has a
replacement, this is written there and nowhere else. -/
theorem pointers_address_entries (hd : d.WellFormed) (s : Settings) (context : Document) :
    (∀ cs, Pointer.escape cs =
        Text.replaceChar '/' ['~', '1'] (Text.replaceChar '~' ['~', '0'] cs) ∧
      Pointer.unescape cs =
        Text.replacePair '~' '0' '~' (Text.replacePair '~' '1' '/' cs)) ∧
    (∀ e ∈ s.entries d, d.atPointer? e.pointer = some e.value) ∧
    (∀ e ∈ s.entries d, ∀ e' ∈ s.entries d,
      e.pointer = e'.pointer ↔ e.location = e'.location) ∧
    ∀ done e rest, s.entries d = done ++ e :: rest →
      let d' := done.foldl (Entry.write context) d
      (∃ v, d'.atPointer? e.pointer = some v ∧ Slot context done e v) ∧
        ∀ t, (e.replacement context).1 = some t →
          Patched e.location (.string t) d' (e.write context d') := by
  have hes : ∀ e ∈ s.entries d, d.get? e.location = some e.value :=
    fun e he ↦ Entry.get?_location hd he
  refine ⟨fun cs ↦ ⟨Pointer.escape_eq_replaceChar cs, Pointer.unescape_eq_replacePair cs⟩,
    fun e he ↦ atPointer?_ofSteps (hes e he),
    fun e he e' he' ↦ ofSteps_eq_iff (hes e he) (hes e' he'), ?_⟩
  intro done e rest hsplit d'
  have hdone : ∀ e' ∈ done, d.get? e'.location = some e'.value := by
    intro e' he'
    refine hes e' ?_
    rw [hsplit]
    exact List.mem_append_left _ he'
  have he : d.get? e.location = some e.value := by
    refine hes e ?_
    rw [hsplit]
    exact List.mem_append_right _ List.mem_cons_self
  have hrew : Rewritten context done d d' := Rewritten.foldl_write (.nil context d) hdone
  obtain ⟨v, hv, hslot⟩ := hrew.exists_slot hd hdone he
  exact ⟨⟨v, atPointer?_ofSteps hv, hslot⟩, fun t ht ↦ hrew.patched_write he ht⟩

/-- An env map with a key that is all but a pointer itself. -/
def slashed : Document := .object [("env", .object [("0/~1", .string "${{x}}")])]

theorem entries_slashed : (Settings.mk ["env"] .fail).entries slashed =
    [⟨[.key "env"], "0/~1", .string "${{x}}"⟩] := by
  cbv

set_option maxRecDepth 4000 in
/-- The key is written with its slash and its tilde replaced, and the text is put below it. -/
theorem pointers_address_entries_slashed :
    let e : Entry := ⟨[.key "env"], "0/~1", .string "${{x}}"⟩
    let context := Document.object [("x", .string "1")]
    slashed.WellFormed ∧ e.pointer = "/env/0~1~01" ∧
      slashed.atPointer? e.pointer = some (.string "${{x}}") ∧
      (e.write context slashed).get? [.key "env", .key "0/~1"] = some (.string "1") := by
  intro e context
  have hd : slashed.WellFormed := .singleton (.singleton (.string _))
  obtain ⟨-, haddress, -, hturns⟩ := pointers_address_entries hd (Settings.mk ["env"] .fail) context
  have he : e ∈ (Settings.mk ["env"] .fail).entries slashed := by
    rw [entries_slashed]
    exact List.mem_singleton_self e
  have hr : (e.replacement context).1 = some "1" := by cbv
  exact ⟨hd, by cbv, haddress e he, ((hturns [] e [] entries_slashed).2 "1" hr).there⟩

set_option maxRecDepth 4000 in
/-- When its turn comes, an entry does not always have its value or a text in its place: the entries
inside it may have come first. -/
theorem exists_entry_changed_inside :
    ∃ done e v, (Settings.mk ["a.b", "a"] .preserve).entries nested = done ++ [e] ∧
      (done.foldl (Entry.write (object [("x", .string "1")])) nested).atPointer? e.pointer =
        some v ∧ v ≠ e.value ∧ ∀ t, v ≠ .string t := by
  refine ⟨[⟨[.key "a", .key "b"], "c", string "${{x}}"⟩],
    ⟨[.key "a"], "b", object [("c", string "${{x}}")]⟩, object [("c", string "1")], by cbv, by cbv,
    ?_, fun t ht ↦ ?_⟩
  · simp
  · cases ht

end Settings

end Interpolation
