import Mathlib
import Interpolation.Proofs.Manifest.Names

/-!
# First occurrences

Names are listed in three stages. An expression lists each name that it reads once; a template puts
the lists of its expressions together, and lists each name in them once; a manifest does so again
with the lists of its entries. Only the last stage would be needed: what is listed are the first
occurrences among all names that are read, in whatever way these are spread over expressions,
templates and entries.

All facts about first occurrences are proved from the end of the list, as `distinct_concat` says
what one more name changes: nothing if it was there before, and else it comes last.
-/

namespace Interpolation

/-! ## One stage -/

section Lists

variable {names : List String}

/-- **One more name.** -/
theorem distinct_concat (names : List String) (n : String) :
    distinct (names ++ [n]) = if n ∈ names then distinct names else distinct names ++ [n] := by
  have hseen : n ∈ names.foldl (fun seen name ↦ if name ∈ seen then seen else name :: seen) [] ↔
      n ∈ names := by
    rw [← List.mem_reverse, ← distinct, mem_distinct]
  rw [distinct, List.foldl_append, List.foldl_cons, List.foldl_nil]
  by_cases hn : n ∈ names
  · rw [if_pos (hseen.mpr hn), if_pos hn, distinct]
  · rw [if_neg (mt hseen.mp hn), if_neg hn, distinct, List.reverse_cons]

theorem distinct_eq_eraseDups (names : List String) : distinct names = names.eraseDups := by
  induction names using List.reverseRecOn with
  | nil => rfl
  | append_singleton names n ih =>
    rw [distinct_concat, List.eraseDups_append, ih, List.removeAll]
    by_cases hn : n ∈ names
    · simp [hn]
    · simp [hn, List.eraseDups_cons]

/-- Names are listed in the order in which they first occur. -/
theorem pairwise_idxOf_distinct (names : List String) :
    (distinct names).Pairwise fun m n ↦ names.idxOf m < names.idxOf n := by
  induction names using List.reverseRecOn with
  | nil => exact List.Pairwise.nil
  | append_singleton names n ih =>
    -- The name at the end changes no first occurrence before it.
    have hbefore : (distinct names).Pairwise fun m m' ↦
        (names ++ [n]).idxOf m < (names ++ [n]).idxOf m' := by
      refine ih.imp_of_mem fun {m m'} hm hm' hlt ↦ ?_
      rwa [List.idxOf_append_of_mem (mem_distinct.mp hm),
        List.idxOf_append_of_mem (mem_distinct.mp hm')]
    rw [distinct_concat]
    by_cases hn : n ∈ names
    · rwa [if_pos hn]
    · rw [if_neg hn]
      refine List.pairwise_append.mpr ⟨hbefore, List.pairwise_singleton _ _, fun m hm m' hm' ↦ ?_⟩
      obtain rfl := List.mem_singleton.mp hm'
      rw [List.idxOf_append_of_mem (mem_distinct.mp hm), List.idxOf_append_of_notMem hn]
      exact Nat.lt_add_right _ (List.idxOf_lt_length_of_mem (mem_distinct.mp hm))

/-- What is left of some names if every occurrence of a name after its first one is dropped. -/
structure FirstOccurrences (names firsts : List String) : Prop where
  eq_eraseDups : firsts = names.eraseDups
  nodup : firsts.Nodup
  mem_iff : ∀ n, n ∈ firsts ↔ n ∈ names
  ordered : firsts.Pairwise fun m n ↦ names.idxOf m < names.idxOf n

theorem firstOccurrences_distinct (names : List String) :
    FirstOccurrences names (distinct names) where
  eq_eraseDups := distinct_eq_eraseDups names
  nodup := nodup_distinct names
  mem_iff _ := mem_distinct
  ordered := pairwise_idxOf_distinct names

/-! ## One stage after another -/

/-- The later names may be gone through beforehand. -/
theorem distinct_append_distinct (names more : List String) :
    distinct (names ++ distinct more) = distinct (names ++ more) := by
  induction more using List.reverseRecOn with
  | nil => rfl
  | append_singleton more n ih =>
    have hmem : n ∈ names ++ distinct more ↔ n ∈ names ++ more := by
      rw [List.mem_append, List.mem_append, mem_distinct]
    rw [distinct_concat, ← List.append_assoc, distinct_concat (names ++ more)]
    by_cases hn : n ∈ more
    · rw [if_pos hn, if_pos (List.mem_append_right _ hn), ih]
    · rw [if_neg hn, ← List.append_assoc, distinct_concat, ih]
      simp only [hmem]

/-- The earlier names may be gone through beforehand. -/
theorem distinct_distinct_append (names more : List String) :
    distinct (distinct names ++ more) = distinct (names ++ more) := by
  induction more using List.reverseRecOn with
  | nil => simpa using distinct_append_distinct [] names
  | append_singleton more n ih =>
    have hmem : n ∈ distinct names ++ more ↔ n ∈ names ++ more := by
      rw [List.mem_append, List.mem_append, mem_distinct]
    rw [← List.append_assoc, ← List.append_assoc, distinct_concat, distinct_concat, ih]
    simp only [hmem]

/-- **Two stages are one.** -/
theorem distinct_flatMap_distinct {α : Type} (f : α → List String) (l : List α) :
    distinct (l.flatMap fun a ↦ distinct (f a)) = distinct (l.flatMap f) := by
  induction l with
  | nil => rfl
  | cons a l ih =>
    rw [List.flatMap_cons, List.flatMap_cons, distinct_distinct_append,
      ← distinct_append_distinct, ih, distinct_append_distinct]

end Lists

/-! ## Names as they are read -/

/-- The names right below a prefix that a span reads, in reading order with repetitions. -/
def Span.mentions (segments : List String) (s : Span) : List String :=
  match s.reading with
  | .ok e => e.tree.names segments
  | .error _ => []

/-- The names that the spans of a template read. -/
def Template.mentions (segments : List String) (t : Template) : List String :=
  t.spans.flatMap (Span.mentions segments)

/-- The names that an entry reads, if it is a text. -/
def Entry.mentions (segments : List String) (e : Entry) : List String :=
  match e.value with
  | .string text => (Template.ofString text).mentions segments
  | _ => []

/-- The names that the entries of a manifest read. -/
def Settings.mentions (s : Settings) (d : Document) (segments : List String) : List String :=
  (s.entries d).flatMap (Entry.mentions segments)

/-! ## All stages -/

variable {segments names : List String}

/-- **Expressions and templates.** -/
theorem Template.names_eq_ok {t : Template} (h : t.names segments = .ok names) :
    names = distinct (t.mentions segments) := by
  have hspans : t.expressions.flatMap (·.names segments) =
      t.spans.flatMap fun s ↦ distinct (s.mentions segments) := by
    rw [expressions]
    induction t.spans with
    | nil => rfl
    | cons s spans ih =>
      rw [List.flatMap_cons, ← ih, Span.mentions]
      cases hs : s.reading with
      | ok e =>
        simp only [List.filterMap_cons, hs, Except.toOption, List.flatMap_cons, Expression.names]
      | error err =>
        simp only [List.filterMap_cons, hs, Except.toOption]
        rfl
  rw [Template.names] at h
  split at h
  · cases h
    rw [hspans, distinct_flatMap_distinct, mentions]
  · cases h

/-- **Entries**, if they have no failure. -/
theorem Entry.names_fst {e : Entry} (h : (e.names segments).2 = []) :
    (e.names segments).1 = distinct (e.mentions segments) := by
  rw [Entry.names] at h ⊢
  rw [mentions]
  cases hv : e.value with
  | string text =>
    simp only [hv] at h ⊢
    cases hnames : (Template.ofString text).names segments with
    | ok ns => exact Template.names_eq_ok hnames
    | error errors =>
      rw [hnames] at h
      exact absurd (List.map_eq_nil_iff.mp h) (Template.ne_nil_of_names_eq_error hnames)
  | _ => rfl

/-- **Manifests.** -/
theorem Settings.names_eq_ok {s : Settings} {d : Document} (h : s.names d segments = .ok names) :
    names = distinct (s.mentions d segments) := by
  rw [Settings.names] at h
  split at h
  · rename_i hfailures
    cases h
    have hentries : ((s.entries d).map (Entry.names segments)).flatMap Prod.fst =
        (s.entries d).flatMap fun e ↦ distinct (e.mentions segments) := by
      rw [List.flatMap_map]
      refine List.flatMap_congr fun e he ↦ Entry.names_fst ?_
      exact List.flatMap_eq_nil_iff.mp hfailures _ (List.mem_map_of_mem he)
    rw [hentries, distinct_flatMap_distinct, mentions]
  · cases h

/-- **Repetitions may be dropped at the end.** The names of a manifest are the first occurrences
among all names that the spans of its entries read, and so are the names of a template among those
that its spans read. -/
theorem names_are_first_occurrences :
    (∀ (s : Settings) (d : Document) (segments names : List String),
      s.names d segments = .ok names → FirstOccurrences (s.mentions d segments) names) ∧
    ∀ (t : Template) (segments names : List String),
      t.names segments = .ok names → FirstOccurrences (t.mentions segments) names := by
  constructor
  · intro s d segments names h
    rw [Settings.names_eq_ok h]
    exact firstOccurrences_distinct _
  · intro t segments names h
    rw [Template.names_eq_ok h]
    exact firstOccurrences_distinct _

set_option maxRecDepth 4000 in
/-- Names are repeated within a span, between spans and between entries. -/
theorem names_are_first_occurrences_repeated :
    let manifest := Document.object [("env", .object [
      ("A", .string "${{s.y || s.x || s.y}} ${{s.x}}"), ("B", .string "${{s.z || s.y}}")])]
    let settings : Settings := ⟨["env"], .fail⟩
    settings.names manifest ["s"] = .ok ["y", "x", "z"] ∧
      FirstOccurrences ["y", "x", "y", "x", "z", "y"] ["y", "x", "z"] := by
  intro manifest settings
  have hnames : settings.names manifest ["s"] = .ok ["y", "x", "z"] := by cbv
  have hmentions : settings.mentions manifest ["s"] = ["y", "x", "y", "x", "z", "y"] := by cbv
  exact ⟨hnames, hmentions ▸ names_are_first_occurrences.1 settings manifest ["s"] _ hnames⟩

end Interpolation
