import Interpolation.Proofs.Document.Pointer

/-!
# Replacing a value at a place

What lies at a place of a document, and what a replacement through a pointer does to all places at
once. The value to be replaced and its replacement are both scalars here, so no place appears or
goes away: every container keeps its outline, and every other scalar stays as it is. `Patched` says
this of two documents, and `exists_replaceAt?_patched` that a replacement brings it about.
-/

namespace Interpolation

namespace Document

/-! ## Outlines -/

/-- What can be seen of a document from outside: its keys or its length, and that it is a scalar
otherwise. -/
inductive Outline where
  | scalar
  | array (length : Nat)
  | object (keys : List String)
  deriving DecidableEq, Repr

/-- The outline of a document. -/
def outline : Document → Outline
  | array items => .array items.length
  | object fs => .object (fs.map Prod.fst)
  | _ => .scalar

variable {d v old new : Document} {s t : Step} {steps : List Step}

theorem child?_of_scalar (h : d.outline = .scalar) : d.child? s = none := by
  cases d with
  | array items => cases h
  | object fs => cases h
  | _ => cases s <;> rfl

/-! ## Places -/

theorem child?_key (d : Document) (k : String) : d.child? (.key k) = d.field? k := by
  cases d <;> rfl

theorem get?_append (l m : List Step) (d : Document) :
    d.get? (l ++ m) = (d.get? l).bind (get? m) := by
  induction l generalizing d with
  | nil => rfl
  | cons s l ih =>
    rw [List.cons_append, get?, get?]
    cases d.child? s with
    | none => rfl
    | some c => exact ih c

theorem get?_singleton (d : Document) (s : Step) : d.get? [s] = d.child? s := by
  rw [get?]
  cases d.child? s <;> rfl

/-! ## Replacing one child -/

theorem map_fst_setField (key : String) (fs : List (String × Document)) :
    (setField key new fs).map Prod.fst = fs.map Prod.fst := by
  fun_induction setField key new fs <;> simp_all

theorem lookup_setField {key k : String} {fs : List (String × Document)}
    (h : fs.lookup key = some old) :
    (setField key new fs).lookup k = if k = key then some new else fs.lookup k := by
  induction fs with
  | nil => cases h
  | cons f fs ih =>
    obtain ⟨k', v⟩ := f
    rw [lookup_cons_eq] at h
    rw [setField]
    by_cases hk : key = k'
    · rw [if_pos hk, lookup_cons_eq, lookup_cons_eq, hk]
      split <;> rfl
    · rw [if_neg hk] at h ⊢
      rw [lookup_cons_eq, lookup_cons_eq, ih h]
      by_cases hkk : k = k'
      · rw [if_pos hkk, if_pos hkk, if_neg (fun e ↦ hk (e.symm.trans hkk))]
      · rw [if_neg hkk, if_neg hkk]

/-- The document with another child after a step that it has. -/
def setChild (new : Document) : Step → Document → Document
  | .index i, array items => array (items.set i new)
  | .key k, object fs => object (setField k new fs)
  | _, d => d

theorem outline_setChild (new : Document) (s : Step) (d : Document) :
    (setChild new s d).outline = d.outline := by
  cases s with
  | index i =>
    cases d with
    | array items => rw [setChild, outline, outline, List.length_set]
    | _ => rfl
  | key k =>
    cases d with
    | object fs => rw [setChild, outline, outline, map_fst_setField]
    | _ => rfl

/-- A step that exists is to an element of an array or to a field of an object. -/
theorem child?_eq_some (h : d.child? s = some old) :
    (∃ i items, s = .index i ∧ d = array items ∧ items[i]? = some old) ∨
      ∃ k fs, s = .key k ∧ d = object fs ∧ fs.lookup k = some old := by
  cases s with
  | index i =>
    cases d with
    | array items => exact .inl ⟨i, items, rfl, rfl, h⟩
    | _ => cases h
  | key k =>
    cases d with
    | object fs => exact .inr ⟨k, fs, rfl, rfl, h⟩
    | _ => cases h

/-- All steps down from a document are of one kind. -/
theorem steps_of_one_kind (hs : d.child? s = some old) (ht : d.child? t = some v) :
    (∃ i j, s = .index i ∧ t = .index j) ∨ ∃ k l, s = .key k ∧ t = .key l := by
  obtain ⟨i, items, rfl, rfl, -⟩ | ⟨k, fs, rfl, rfl, -⟩ := child?_eq_some hs
  · obtain ⟨j, items', rfl, -, -⟩ | ⟨l, fs, rfl, hd, -⟩ := child?_eq_some ht
    · exact .inl ⟨i, j, rfl, rfl⟩
    · cases hd
  · obtain ⟨j, items, rfl, hd, -⟩ | ⟨l, fs', rfl, -, -⟩ := child?_eq_some ht
    · cases hd
    · exact .inr ⟨k, l, rfl, rfl⟩

theorem child?_setChild (h : d.child? s = some old) :
    (setChild new s d).child? t = if t = s then some new else d.child? t := by
  obtain ⟨i, items, rfl, rfl, hi⟩ | ⟨k, fs, rfl, rfl, hk⟩ := child?_eq_some h
  · cases t with
    | index j =>
      obtain ⟨hlt, -⟩ := List.getElem?_eq_some_iff.mp hi
      simp only [setChild, child?, List.getElem?_set, Step.index.injEq, eq_comm (a := j)]
      simp only [hlt, reduceIte]
    | key k => simp [setChild, child?]
  · cases t with
    | index j => simp [setChild, child?]
    | key k' => simp only [setChild, child?, lookup_setField hk, Step.key.injEq]

/-- A replacement goes down one step at a time. -/
theorem replace?_name_cons (h : d.child? s = some old) (ns : List String) :
    replace? new (s.name :: ns) d = (replace? new ns old).map fun c ↦ setChild c s d := by
  obtain ⟨i, items, rfl, rfl, hi⟩ | ⟨k, fs, rfl, rfl, hk⟩ := child?_eq_some h
  · simp only [Step.name, replace?, Pointer.index?_repr, Option.bind_eq_bind, Option.bind_some, hi]
    cases replace? new ns old <;> rfl
  · simp only [Step.name, replace?, hk, Option.bind_eq_bind, Option.bind_some]
    cases replace? new ns old <;> rfl

/-! ## Replacing a scalar -/

/-- `d'` is `d` with the scalar `new` at a place of another scalar. -/
structure Patched (place : List Step) (new d d' : Document) : Prop where
  outline_eq : ∀ l, (d'.get? l).map outline = (d.get? l).map outline
  there : d'.get? place = some new
  elsewhere : ∀ l v, l ≠ place → v.outline = .scalar → d.get? l = some v → d'.get? l = some v

theorem Patched.root (hn : new.outline = .scalar) (ho : old.outline = .scalar) :
    Patched [] new old new where
  outline_eq l := by
    cases l with
    | nil => simp [get?, hn, ho]
    | cons s l => simp [get?, child?_of_scalar hn, child?_of_scalar ho]
  there := rfl
  elsewhere l v hl hv hlv := by
    cases l with
    | nil => exact absurd rfl hl
    | cons s l => simp [get?, child?_of_scalar ho] at hlv

theorem Patched.below {c c' : Document} (hc : d.child? s = some c) (hp : Patched steps new c c') :
    Patched (s :: steps) new d (setChild c' s d) where
  outline_eq l := by
    cases l with
    | nil => simp [get?, outline_setChild]
    | cons t l =>
      rw [get?, get?, child?_setChild hc]
      by_cases ht : t = s
      · rw [if_pos ht, ht, hc]
        exact hp.outline_eq l
      · rw [if_neg ht]
  there := by
    rw [get?, child?_setChild hc, if_pos rfl]
    exact hp.there
  elsewhere l v hl hv hlv := by
    cases l with
    | nil =>
      -- A scalar at the root would have no child to go down to.
      cases hlv
      rw [child?_of_scalar hv] at hc
      cases hc
    | cons t l =>
      rw [get?] at hlv
      rw [get?, child?_setChild hc]
      by_cases ht : t = s
      · rw [ht, hc] at hlv
        rw [if_pos ht]
        exact hp.elsewhere l v (fun e ↦ hl (by rw [ht, e])) hv hlv
      · rw [if_neg ht]
        exact hlv

theorem exists_replace?_patched (hn : new.outline = .scalar) (ho : old.outline = .scalar)
    (h : d.get? steps = some old) :
    ∃ d', replace? new (steps.map Step.name) d = some d' ∧ Patched steps new d d' := by
  induction steps generalizing d with
  | nil =>
    cases h
    exact ⟨new, by cases old <;> rfl, .root hn ho⟩
  | cons s steps ih =>
    obtain ⟨c, hc, hget⟩ := Option.bind_eq_some_iff.mp h
    obtain ⟨c', hrep, hp⟩ := ih hget
    refine ⟨setChild c' s d, ?_, .below hc hp⟩
    rw [List.map_cons, replace?_name_cons hc, hrep, Option.map_some]

/-- **Replacing through a pointer.** -/
theorem exists_replaceAt?_patched (hn : new.outline = .scalar) (ho : old.outline = .scalar)
    (h : d.get? steps = some old) :
    ∃ d', d.replaceAt? (Pointer.ofSteps steps) new = some d' ∧ Patched steps new d d' := by
  obtain ⟨d', hrep, hp⟩ := exists_replace?_patched hn ho h
  exact ⟨d', by rw [replaceAt?, Pointer.names?_ofSteps, Option.bind_some, hrep], hp⟩

end Document

end Interpolation
