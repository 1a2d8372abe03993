import Interpolation.Manifest.Resolver
import Interpolation.Proofs.Manifest.Entry

/-!
# The list of entries

The entries of a path are the members of the objects that its walks reach. None is missing, none is
listed twice, and they stand in the order of the document: a well-formed document has its fields in
the order of their keys.

## Why places for reading are unambiguous

The written place of an entry joins the names of its steps and its key with dots, and the key may
contain dots itself. Still no two entries of one path are written alike. The names of the steps have
no dots, so they can be read off the text as long as it is known how many of them there are. This
the document decides: two walks part only at different elements of one array, never by one of them
going on where the other ends, because both have the same segments to spell.
-/

namespace Interpolation

open Text

/-! ## Pieces between dots -/

namespace Text

variable {sep : Char} {cs p : List Char}

theorem notMem_of_mem_pieces (h : p ∈ pieces sep cs) : sep ∉ p := by
  fun_induction pieces sep cs generalizing p with
  | case1 =>
    rw [List.mem_singleton.mp h]
    exact List.not_mem_nil
  | case2 cs ih =>
    rcases List.mem_cons.mp h with rfl | h
    · exact List.not_mem_nil
    · exact ih h
  | case3 c cs hc heq => exact absurd heq (pieces_ne_nil sep cs)
  | case4 c cs hc q qs heq ih =>
    rw [heq] at ih
    rcases List.mem_cons.mp h with rfl | h
    · rw [List.mem_cons, not_or]
      exact ⟨Ne.symm hc, ih List.mem_cons_self⟩
    · exact ih (List.mem_cons_of_mem q h)

theorem intercalate_pieces (sep : Char) (cs : List Char) :
    [sep].intercalate (pieces sep cs) = cs := by
  fun_induction pieces sep cs with
  | case1 => rfl
  | case2 cs ih => rw [List.intercalate_cons_of_ne_nil (pieces_ne_nil sep cs), ih]; rfl
  | case3 c cs hc heq => exact absurd heq (pieces_ne_nil sep cs)
  | case4 c cs hc q qs heq ih =>
    rw [heq] at ih
    by_cases hqs : qs = []
    · rw [hqs, List.intercalate_singleton] at ih ⊢
      rw [ih]
    · rw [List.intercalate_cons_of_ne_nil hqs] at ih ⊢
      rw [← ih, List.cons_append, List.cons_append]

variable {s : String}

theorem dotted_ne_nil (s : String) : dotted s ≠ [] :=
  fun h ↦ pieces_ne_nil '.' s.toList (List.map_eq_nil_iff.mp h)

theorem dot_notMem_of_mem_dotted {segment : String} (h : segment ∈ dotted s) :
    '.' ∉ segment.toList := by
  obtain ⟨p, hp, rfl⟩ := List.mem_map.mp h
  rw [String.toList_ofList]
  exact notMem_of_mem_pieces hp

/-- The pieces of a string, joined with dots, are the string. -/
theorem intercalate_dotted (s : String) : ".".intercalate (dotted s) = s := by
  rw [← String.toList_inj, String.toList_intercalate, dotted, List.map_map]
  have hcomp : String.toList ∘ String.ofList = id := funext fun _ ↦ String.toList_ofList
  rw [hcomp, List.map_id]
  exact intercalate_pieces '.' s.toList

/-- Strings without dots are the first pieces of what they are joined to. -/
theorem dotted_intercalate_concat {names : List String} (h : ∀ n ∈ names, '.' ∉ n.toList)
    (key : String) : dotted (".".intercalate (names ++ [key])) = names ++ dotted key := by
  induction names with
  | nil => rw [List.nil_append, String.intercalate_singleton, List.nil_append]
  | cons n names ih =>
    have hne : names ++ [key] ≠ [] := List.append_ne_nil_of_right_ne_nil _ (List.cons_ne_nil _ _)
    have hrest := ih fun m hm ↦ h m (List.mem_cons_of_mem n hm)
    rw [dotted] at hrest
    rw [List.cons_append, String.intercalate_cons_of_ne_nil hne, dotted, String.append_assoc,
      String.toList_append, String.toList_append]
    have hcut := pieces_append (h n List.mem_cons_self) (".".intercalate (names ++ [key])).toList
    have hdot : ".".toList = ['.'] := rfl
    rw [hdot, List.singleton_append, hcut, List.map_cons, String.ofList_toList, hrest,
      List.cons_append]

end Text

/-! ## Written steps -/

namespace Step

theorem display_index_inj {i j : Nat} (h : (index i).display = (index j).display) : i = j := by
  rw [display, display, String.append_left_inj, String.append_right_inj] at h
  rw [← Option.some.injEq, ← Pointer.index?_repr i, h, Pointer.index?_repr]

end Step

namespace Spells

variable {d v v' : Document} {segments : List String} {steps steps' : List Step}

theorem dot_notMem_display (h : Spells segments steps) (hdots : ∀ n ∈ segments, '.' ∉ n.toList) :
    ∀ n ∈ steps.map Step.display, '.' ∉ n.toList := by
  intro n hn
  obtain ⟨s, hs, rfl⟩ := List.mem_map.mp hn
  rcases s with i | k
  · intro hdot
    rw [Step.display, String.toList_append, String.toList_append, Nat.toList_repr] at hdot
    have hdigits : '.' ∈ Nat.toDigits 10 i := by simpa using hdot
    exact absurd (Nat.isDigit_of_mem_toDigits (by decide) (by decide) hdigits) (by decide)
  · refine hdots k ?_
    rw [← h.keys]
    exact List.mem_filterMap.mpr ⟨.key k, hs, rfl⟩

/-- **Walks along the same segments** are equal if one of them, as it is written, begins the
other. -/
theorem eq_of_display_prefix (h : Spells segments steps) (h' : Spells segments steps')
    (hv : d.get? steps = some v) (hv' : d.get? steps' = some v')
    (hpre : steps.map Step.display <+: steps'.map Step.display) : steps = steps' := by
  induction steps generalizing d segments steps' with
  | nil =>
    rw [nil_iff.mp h] at h'
    exact h'.eq_nil.symm
  | cons s steps ih =>
    rcases steps' with _ | ⟨t, steps'⟩
    · exact absurd (List.prefix_nil.mp hpre) (List.cons_ne_nil _ _)
    obtain ⟨hhead, htail⟩ := List.cons_prefix_cons.mp hpre
    obtain ⟨x, hx, hbelow⟩ := Option.bind_eq_some_iff.mp hv
    obtain ⟨y, hy, hbelow'⟩ := Option.bind_eq_some_iff.mp hv'
    have hst : s = t := by
      obtain ⟨i, j, rfl, rfl⟩ | ⟨k, k', rfl, rfl⟩ := Document.steps_of_one_kind hx hy
      · rw [Step.display_index_inj hhead]
      · exact congrArg Step.key hhead
    subst hst
    obtain rfl : x = y := Option.some.inj (hx.symm.trans hy)
    rcases s with i | k
    · rw [ih (index_cons_iff.mp h).2 (index_cons_iff.mp h').2 hbelow hbelow' htail]
    · obtain ⟨rest, rfl, hrest⟩ := key_cons_iff.mp h
      obtain ⟨rest', heq, hrest'⟩ := key_cons_iff.mp h'
      obtain ⟨-, rfl⟩ := List.cons.inj heq
      rw [ih hrest hrest' hbelow hbelow' htail]

end Spells

/-! ## The list -/

namespace Entry

variable {d : Document} {e e' : Entry} {path : String}

theorem path_eq (e : Entry) : e.path = ".".intercalate (e.steps.map Step.display ++ [e.key]) := by
  rw [Entry.path, location, List.map_append]
  rfl

/-- **Entries that are written alike** are at one place. -/
theorem location_eq_of_path_eq (he : e ∈ ofPath path d) (he' : e' ∈ ofPath path d)
    (h : e.path = e'.path) : e.location = e'.location := by
  obtain ⟨hspells, env, henv, -⟩ := mem_ofPath_iff.mp he
  obtain ⟨hspells', env', henv', -⟩ := mem_ofPath_iff.mp he'
  have hdots : ∀ n ∈ dotted path, '.' ∉ n.toList := fun n ↦ dot_notMem_of_mem_dotted
  rw [path_eq, path_eq] at h
  -- Both walks begin the list of the pieces of the text, so one begins the other.
  have hpieces := congrArg dotted h
  rw [dotted_intercalate_concat (hspells.dot_notMem_display hdots),
    dotted_intercalate_concat (hspells'.dot_notMem_display hdots)] at hpieces
  have hsteps : e.steps = e'.steps := by
    have hpre : e.steps.map Step.display <+: e'.steps.map Step.display ++ dotted e'.key :=
      hpieces ▸ List.prefix_append _ _
    rcases List.prefix_or_prefix_of_prefix hpre (List.prefix_append _ _) with hp | hp
    · exact hspells.eq_of_display_prefix hspells' henv henv' hp
    · exact (hspells'.eq_of_display_prefix hspells henv' henv hp).symm
  have hkey : e.key = e'.key := by
    rw [hsteps, List.append_cancel_left_eq] at hpieces
    rw [← intercalate_dotted e.key, hpieces, intercalate_dotted]
  rw [location, location, hsteps, hkey]

/-- Entries are listed in the order of their places. -/
theorem pairwise_location (hd : d.WellFormed) (path : String) :
    (ofPath path d).Pairwise fun e e' ↦ Document.Ahead e.location e'.location := by
  apply List.pairwise_flatMap.mpr
  constructor
  · intro p hp
    have henv : d.get? p.1 = some p.2 := (Document.mem_walks_iff.mp hp).2
    refine List.pairwise_map.mpr ((hd.get henv).pairwise_fields.imp fun hlt ↦ ?_)
    exact (Document.Ahead.key hlt [] []).append_left p.1
  · refine (Document.pairwise_walks hd (dotted path)).imp fun hpq x hx y hy ↦ ?_
    obtain ⟨f, -, rfl⟩ := List.mem_map.mp hx
    obtain ⟨g, -, rfl⟩ := List.mem_map.mp hy
    exact hpq.append _ _

theorem nodup_path (hd : d.WellFormed) (path : String) :
    ((ofPath path d).map Entry.path).Nodup := by
  refine List.pairwise_map.mpr ((pairwise_location hd path).imp_of_mem fun he he' hahead h ↦ ?_)
  exact hahead.ne (location_eq_of_path_eq he he' h)

end Entry

namespace Settings

variable {d : Document}

/-- **The entries are exactly the members at the env paths.** The segments of a path are its pieces
between dots. Its entries are the members of all objects that are reached by walks along the
segments; they are listed in the order of the document, and each of them once. An entry is written
as the steps of its walk and its key, joined by dots, and no other entry of the path is written like
this. The entries of a manifest are those of its paths, one path after another. -/
theorem entries_are_members (hd : d.WellFormed) (path : String) :
    (dotted path ≠ [] ∧ (∀ segment ∈ dotted path, '.' ∉ segment.toList) ∧
      ".".intercalate (dotted path) = path) ∧
    (∀ e, e ∈ Entry.ofPath path d ↔ Spells (dotted path) e.steps ∧
      ∃ fs, d.get? e.steps = some (.object fs) ∧ (e.key, e.value) ∈ fs) ∧
    (Entry.ofPath path d).Pairwise (fun e e' ↦ Document.Ahead e.location e'.location) ∧
    (∀ e ∈ Entry.ofPath path d,
      e.path = ".".intercalate (e.steps.map Step.display ++ [e.key])) ∧
    ((Entry.ofPath path d).map Entry.path).Nodup ∧
    ∀ s : Settings, s.entries d = s.envPaths.flatMap fun p ↦ Entry.ofPath p d := by
  refine ⟨⟨dotted_ne_nil path, fun segment ↦ dot_notMem_of_mem_dotted, intercalate_dotted path⟩,
    fun e ↦ ?_, Entry.pairwise_location hd path, fun e _ ↦ e.path_eq, Entry.nodup_path hd path,
    fun s ↦ rfl⟩
  rw [Entry.mem_ofPath_iff]
  refine and_congr_right fun _ ↦ ⟨?_, ?_⟩
  · rintro ⟨env, henv, hkv⟩
    cases env with
    | object fs => exact ⟨fs, henv, hkv⟩
    | _ => cases hkv
  · rintro ⟨fs, hfs, hkv⟩
    exact ⟨.object fs, hfs, hkv⟩

/-- Two maps below a list, with keys that look like one place. -/
def fanned : Document :=
  .object [("a", .array [.object [("env", .object [("b.c", .string "1")])],
    .object [("env", .object [("[0].b", .null), ("b.c", .string "2")])]])]

theorem wellFormed_fanned : fanned.WellFormed := by
  refine .singleton (.array fun d hd ↦ ?_)
  rcases List.mem_cons.mp hd with rfl | hd
  · exact .singleton (.singleton (.string _))
  · rw [List.mem_singleton.mp hd]
    refine .singleton (.object (by decide) fun f hf ↦ ?_)
    rcases List.mem_cons.mp hf with rfl | hf
    · exact .null
    · rw [List.mem_singleton.mp hf]
      exact .string _

/-- The member of the second map is found, and its written place is that of no other entry. -/
theorem entries_are_members_fanned :
    fanned.WellFormed ∧
      ⟨[.key "a", .index 1, .key "env"], "b.c", .string "2"⟩ ∈ Entry.ofPath "a.env" fanned ∧
      ((Entry.ofPath "a.env" fanned).map Entry.path).Nodup := by
  obtain ⟨-, hmem, -, -, hnodup, -⟩ := entries_are_members wellFormed_fanned "a.env"
  have hspells : Spells (dotted "a.env") [.key "a", .index 1, .key "env"] := by
    refine ⟨by cbv, fun s hs ↦ ⟨"env", ?_⟩⟩
    exact (Option.mem_some_iff.mp hs).symm
  refine ⟨wellFormed_fanned, (hmem _).mpr ⟨hspells, _, rfl, ?_⟩, hnodup⟩
  exact List.mem_cons_of_mem _ List.mem_cons_self

end Settings

end Interpolation
