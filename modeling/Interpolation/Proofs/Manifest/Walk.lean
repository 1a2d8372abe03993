import Interpolation.Manifest.Entry
import Interpolation.Proofs.Document.WellFormed

/-!
# Walks along a path

The env maps of a path are found by a recursion that spreads over arrays and goes down into objects.
Here they are described without it: a walk is any way down from the root whose steps into objects
spell the segments of the path, with steps into arrays anywhere before the last of them. The
recursion finds all walks, each of them once, in the order of the document.

The order is that of places of which none contains the other: they part at two elements of an array
or at two fields of an object, and the place that goes on in the former of these is the former one.
-/

namespace Interpolation

/-! ## Ways down that spell segments -/

namespace Step

/-- The key of a step into an object. -/
def key? : Step → Option String
  | index _ => none
  | key k => some k

end Step

/-- The steps of a walk along some segments: those into objects spell the segments in order, and
none into an array comes behind the last of them. -/
structure Spells (segments : List String) (steps : List Step) : Prop where
  keys : steps.filterMap Step.key? = segments
  last : ∀ s ∈ steps.getLast?, ∃ k, s = .key k

namespace Spells

variable {segments : List String} {steps : List Step} {i : Nat} {k : String}

theorem nil_iff : Spells segments [] ↔ segments = [] := by
  constructor
  · intro h
    exact h.keys.symm
  · rintro rfl
    exact ⟨rfl, fun s hs ↦ by cases hs⟩

theorem key_cons_iff :
    Spells segments (.key k :: steps) ↔ ∃ rest, segments = k :: rest ∧ Spells rest steps := by
  constructor
  · rintro ⟨hkeys, hlast⟩
    refine ⟨steps.filterMap Step.key?, hkeys.symm, rfl, fun s hs ↦ hlast s ?_⟩
    rw [List.getLast?_cons, Option.mem_def.mp hs]
    exact Option.mem_some_self s
  · rintro ⟨rest, rfl, hkeys, hlast⟩
    refine ⟨by rw [← hkeys]; rfl, fun s hs ↦ ?_⟩
    rw [List.getLast?_cons, Option.mem_some_iff] at hs
    rcases hl : steps.getLast? with _ | t
    · rw [hl] at hs
      exact ⟨k, hs.symm⟩
    · rw [hl] at hs
      obtain rfl : t = s := hs
      exact hlast t hl

/-- A step into an array leaves something to spell. -/
theorem index_cons_iff :
    Spells segments (.index i :: steps) ↔ segments ≠ [] ∧ Spells segments steps := by
  constructor
  · rintro ⟨hkeys, hlast⟩
    have hne : steps ≠ [] := by
      rintro rfl
      obtain ⟨k, hk⟩ := hlast _ rfl
      cases hk
    obtain ⟨s, front, hs⟩ := List.exists_cons_of_ne_nil hne
    have hlast' : ∀ t ∈ steps.getLast?, ∃ k, t = .key k := by
      intro t ht
      refine hlast t ?_
      rw [hs, List.getLast?_cons_cons, ← hs]
      exact ht
    refine ⟨?_, hkeys, hlast'⟩
    -- The last step is into an object, so its key is among the segments.
    obtain ⟨k, hk⟩ := hlast' _ (List.getLast?_eq_some_getLast hne)
    have hmem : k ∈ segments := by
      rw [← hkeys]
      refine List.mem_filterMap.mpr ⟨_, List.mem_cons_of_mem _ (List.getLast_mem hne), ?_⟩
      rw [hk]
      rfl
    exact List.ne_nil_of_mem hmem
  · rintro ⟨hne, hkeys, hlast⟩
    refine ⟨hkeys, fun s hs ↦ hlast s ?_⟩
    have hsteps : steps ≠ [] := by
      rintro rfl
      exact hne hkeys.symm
    obtain ⟨t, rest, rfl⟩ := List.exists_cons_of_ne_nil hsteps
    exact hs

/-- Without segments there is no step. -/
theorem eq_nil (h : Spells [] steps) : steps = [] := by
  rcases steps with _ | ⟨i | k, steps⟩
  · rfl
  · exact absurd rfl (index_cons_iff.mp h).1
  · obtain ⟨rest, hrest, -⟩ := key_cons_iff.mp h
    cases hrest

end Spells

/-! ## Walks -/

namespace Document

variable {d v : Document} {segment : String} {segments : List String} {steps : List Step}

/-- What is reached by one more step in front. -/
def beyond (s : Step) (p : List Step × Document) : List Step × Document := (s :: p.1, p.2)

/-- Where a spread document goes on, each of its elements does, one after another. -/
theorem flatMap_spreadItems (f : List Step × Document → List (List Step × Document))
    (hf : ∀ s p, f (beyond s p) = (f p).map (beyond s)) (items : List Document) (i : Nat) :
    (spreadItems i items).flatMap f =
      (items.zipIdx i).flatMap fun p ↦ (p.1.spread.flatMap f).map (beyond (.index p.2)) := by
  induction items generalizing i with
  | nil => rfl
  | cons x items ih =>
    have hhead : (x.spread.map (beyond (.index i))).flatMap f =
        (x.spread.flatMap f).map (beyond (.index i)) := by
      rw [List.flatMap_map, List.map_flatMap]
      exact congrArg (List.flatMap · x.spread) (funext (hf (.index i)))
    rw [spreadItems, List.flatMap_append, ih, List.zipIdx_cons, List.flatMap_cons, ← hhead]
    rfl

/-! ### The equations of walks -/

theorem walks_array (segment : String) (segments : List String) (items : List Document) :
    (array items).walks (segment :: segments) = items.zipIdx.flatMap fun p ↦
      (p.1.walks (segment :: segments)).map (beyond (.index p.2)) := by
  rw [walks, spread, flatMap_spreadItems]
  · rfl
  · intro s p
    simp only [beyond]
    rcases p.2.field? segment with _ | child
    · rfl
    · simp only [List.map_map]
      rfl

theorem walks_object (segment : String) (segments : List String)
    (fs : List (String × Document)) : (object fs).walks (segment :: segments) =
      (fs.lookup segment).elim [] fun child ↦
        (child.walks segments).map (beyond (.key segment)) := by
  rw [walks, spread, List.flatMap_singleton]
  · simp only [field?_object]
    rcases fs.lookup segment with _ | child
    · rfl
    · rfl
  · intro items h
    cases h

theorem walks_scalar (h : d.outline = .scalar) : d.walks (segment :: segments) = [] := by
  cases d with
  | array items => cases h
  | object fs => cases h
  | _ => rfl

theorem nil_notMem_map_beyond {s : Step} {ps : List (List Step × Document)} :
    ([], v) ∉ ps.map (beyond s) := by
  intro h
  obtain ⟨p, -, hp⟩ := List.mem_map.mp h
  cases hp

theorem cons_mem_map_beyond_iff {s t : Step} {ps : List (List Step × Document)} :
    (s :: steps, v) ∈ ps.map (beyond t) ↔ s = t ∧ (steps, v) ∈ ps := by
  constructor
  · intro h
    obtain ⟨p, hp, heq⟩ := List.mem_map.mp h
    cases heq
    exact ⟨rfl, hp⟩
  · rintro ⟨rfl, h⟩
    exact List.mem_map_of_mem h

theorem nil_notMem_walks : ([], v) ∉ d.walks (segment :: segments) := by
  intro h
  cases d with
  | array items =>
    rw [walks_array] at h
    obtain ⟨p, -, hp⟩ := List.mem_flatMap.mp h
    exact nil_notMem_map_beyond hp
  | object fs =>
    rw [walks_object] at h
    rcases hc : fs.lookup segment with _ | child
    · rw [hc] at h
      cases h
    · rw [hc] at h
      exact nil_notMem_map_beyond h
  | _ => cases h

/-- A walk begins with a step to an element, or with the step that the first segment names. -/
theorem cons_mem_walks_iff {s : Step} : (s :: steps, v) ∈ d.walks (segment :: segments) ↔
    (∃ i x, s = .index i ∧ d.child? s = some x ∧ (steps, v) ∈ x.walks (segment :: segments)) ∨
      ∃ x, s = .key segment ∧ d.child? s = some x ∧ (steps, v) ∈ x.walks segments := by
  cases d with
  | array items =>
    simp only [walks_array, List.mem_flatMap, cons_mem_map_beyond_iff, List.mem_zipIdx_iff_getElem?]
    constructor
    · rintro ⟨⟨x, i⟩, hx, rfl, hwalk⟩
      exact .inl ⟨i, x, rfl, hx, hwalk⟩
    · rintro (⟨i, x, rfl, hx, hwalk⟩ | ⟨x, rfl, hx, -⟩)
      · exact ⟨(x, i), hx, rfl, hwalk⟩
      · cases hx
  | object fs =>
    rw [walks_object]
    constructor
    · intro h
      rcases hc : fs.lookup segment with _ | child
      · rw [hc] at h
        cases h
      · rw [hc] at h
        obtain ⟨rfl, hwalk⟩ := cons_mem_map_beyond_iff.mp h
        exact .inr ⟨child, rfl, hc, hwalk⟩
    · rintro (⟨i, x, rfl, hx, -⟩ | ⟨x, rfl, hx, hwalk⟩)
      · cases hx
      · have hc : fs.lookup segment = some x := hx
        rw [hc]
        exact cons_mem_map_beyond_iff.mpr ⟨rfl, hwalk⟩
  | _ =>
    rw [walks_scalar rfl]
    constructor
    · intro h
      cases h
    · rintro (⟨i, x, -, hx, -⟩ | ⟨x, -, hx, -⟩)
      · rw [child?_of_scalar rfl] at hx
        cases hx
      · rw [child?_of_scalar rfl] at hx
        cases hx

/-- **A walk is any way down that spells the segments.** The induction is on the steps, since the
segments stay the same while arrays are passed. -/
theorem mem_walks_iff :
    (steps, v) ∈ d.walks segments ↔ Spells segments steps ∧ d.get? steps = some v := by
  induction steps generalizing d segments with
  | nil =>
    rw [Spells.nil_iff]
    rcases segments with _ | ⟨segment, segments⟩
    · simp [walks, get?, eq_comm]
    · exact iff_of_false nil_notMem_walks fun h ↦ List.cons_ne_nil _ _ h.1
  | cons s steps ih =>
    rw [get?, Option.bind_eq_some_iff]
    rcases segments with _ | ⟨segment, segments⟩
    · refine iff_of_false (fun h ↦ ?_) fun h ↦ List.cons_ne_nil _ _ h.1.eq_nil
      cases List.mem_singleton.mp h
    rw [cons_mem_walks_iff]
    constructor
    · rintro (⟨i, x, rfl, hx, hwalk⟩ | ⟨x, rfl, hx, hwalk⟩)
      · obtain ⟨hspells, hget⟩ := ih.mp hwalk
        exact ⟨Spells.index_cons_iff.mpr ⟨List.cons_ne_nil _ _, hspells⟩, x, hx, hget⟩
      · obtain ⟨hspells, hget⟩ := ih.mp hwalk
        exact ⟨Spells.key_cons_iff.mpr ⟨segments, rfl, hspells⟩, x, hx, hget⟩
    · rintro ⟨hspells, x, hx, hget⟩
      rcases s with i | k
      · have hrest := (Spells.index_cons_iff.mp hspells).2
        exact .inl ⟨i, x, rfl, hx, ih.mpr ⟨hrest, hget⟩⟩
      · obtain ⟨rest, hsegments, hrest⟩ := Spells.key_cons_iff.mp hspells
        obtain ⟨rfl, rfl⟩ := List.cons.inj hsegments
        exact .inr ⟨x, rfl, hx, ih.mpr ⟨hrest, hget⟩⟩

/-! ## The order of walks -/

/-- The place `l` comes before the place `m`: where they part, it goes on in an element with a
smaller number, or in a field with a smaller key. -/
inductive Ahead : List Step → List Step → Prop where
  | index {i j : Nat} (h : i < j) (l m : List Step) : Ahead (.index i :: l) (.index j :: m)
  | key {k k' : String} (h : k < k') (l m : List Step) : Ahead (.key k :: l) (.key k' :: m)
  | cons {l m : List Step} (s : Step) (h : Ahead l m) : Ahead (s :: l) (s :: m)

namespace Ahead

variable {l m : List Step}

theorem ne (h : Ahead l m) : l ≠ m := by
  induction h with
  | index h l m =>
    intro heq
    exact Nat.ne_of_lt h (Step.index.inj (List.cons.inj heq).1)
  | key h l m =>
    intro heq
    rw [Step.key.inj (List.cons.inj heq).1] at h
    exact String.lt_irrefl _ h
  | cons s h ih =>
    intro heq
    exact ih (List.cons.inj heq).2

/-- Below places in order, everything is in order. -/
theorem append (h : Ahead l m) (l' m' : List Step) : Ahead (l ++ l') (m ++ m') := by
  induction h with
  | index h l m => exact .index h _ _
  | key h l m => exact .key h _ _
  | cons s h ih => exact .cons s ih

theorem append_left (h : Ahead l m) (common : List Step) : Ahead (common ++ l) (common ++ m) := by
  induction common with
  | nil => exact h
  | cons s common ih => exact .cons s ih

end Ahead

/-- **Walks are found in the order of the document.** -/
theorem pairwise_walks (hd : d.WellFormed) (segments : List String) :
    (d.walks segments).Pairwise fun p q ↦ Ahead p.1 q.1 := by
  have hbeyond : ∀ {s : Step} {ps : List (List Step × Document)},
      ps.Pairwise (fun p q ↦ Ahead p.1 q.1) →
        (ps.map (beyond s)).Pairwise fun p q ↦ Ahead p.1 q.1 :=
    fun h ↦ List.pairwise_map.mpr (h.imp fun hpq ↦ .cons _ hpq)
  induction hd generalizing segments with
  | @array items hitems ih =>
    rcases segments with _ | ⟨segment, segments⟩
    · exact List.pairwise_singleton _ _
    rw [walks_array]
    apply List.pairwise_flatMap.mpr
    constructor
    · intro p hp
      have hmem : p.1 ∈ items := List.mem_of_getElem? (List.mem_zipIdx_iff_getElem?.mp hp)
      exact hbeyond (ih p.1 hmem _)
    -- The walks into different elements part there.
    · have hnumbers : (items.zipIdx.map Prod.snd).Pairwise (· < ·) := by
        rw [List.zipIdx_map_snd]
        exact List.pairwise_lt_range'
      refine (List.pairwise_map.mp hnumbers).imp fun hlt x hx y hy ↦ ?_
      obtain ⟨x', -, rfl⟩ := List.mem_map.mp hx
      obtain ⟨y', -, rfl⟩ := List.mem_map.mp hy
      exact .index hlt _ _
  | @object fs hk hfs ih =>
    rcases segments with _ | ⟨segment, segments⟩
    · exact List.pairwise_singleton _ _
    rw [walks_object]
    rcases hc : fs.lookup segment with _ | child
    · exact .nil
    · obtain ⟨l₁, l₂, rfl, -⟩ := List.lookup_eq_some_iff.mp hc
      have hmem : (segment, child) ∈ l₁ ++ (segment, child) :: l₂ := by simp
      exact hbeyond (ih _ hmem segments)
  | _ =>
    rcases segments with _ | ⟨segment, segments⟩
    · exact List.pairwise_singleton _ _
    · rw [walks_scalar rfl]
      exact .nil

end Document

end Interpolation
