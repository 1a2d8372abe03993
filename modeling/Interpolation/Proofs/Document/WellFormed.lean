import Interpolation.Proofs.Document.Place

/-!
# Well-formed documents

The parts of a well-formed document are well-formed, and each key of an object has one field only.
A field can be inserted, removed, or taken over from another object: the keys stay in order, and
the other fields what they are.
-/

namespace Interpolation

namespace Document

variable {key k : String} {d v value : Document} {fs source : List (String × Document)}

/-! ## Parts -/

theorem WellFormed.child {s : Step} (hd : d.WellFormed) (h : d.child? s = some v) :
    v.WellFormed := by
  obtain ⟨i, items, rfl, rfl, hi⟩ | ⟨k, fs, rfl, rfl, hk⟩ := child?_eq_some h
  · cases hd with
    | array hitems => exact hitems v (List.mem_of_getElem? hi)
  · cases hd with
    | object _ hfs =>
      obtain ⟨l₁, l₂, rfl, -⟩ := List.lookup_eq_some_iff.mp hk
      exact hfs (k, v) (by simp)

theorem WellFormed.get {l : List Step} (hd : d.WellFormed) (h : d.get? l = some v) :
    v.WellFormed := by
  induction l generalizing d with
  | nil =>
    cases h
    exact hd
  | cons s l ih =>
    obtain ⟨c, hc, hget⟩ := Option.bind_eq_some_iff.mp h
    exact ih (hd.child hc) hget

/-- Where the keys are in order, a field is the only one with its key. -/
theorem lookup_of_mem (hk : (fs.map Prod.fst).Pairwise (· < ·)) (h : (k, v) ∈ fs) :
    fs.lookup k = some v := by
  obtain ⟨l₁, l₂, rfl⟩ := List.append_of_mem h
  refine List.lookup_eq_some_iff.mpr ⟨l₁, l₂, rfl, fun p hp ↦ ?_⟩
  rw [List.map_append, List.pairwise_append] at hk
  have hlt : p.1 < k := hk.2.2 p.1 (List.mem_map_of_mem hp) k (by simp)
  refine bne_iff_ne.mpr fun heq ↦ ?_
  rw [heq] at hlt
  exact String.lt_irrefl p.1 hlt

theorem WellFormed.field?_of_mem (hd : d.WellFormed) (h : (k, v) ∈ d.fields) :
    d.field? k = some v := by
  cases hd with
  | object hk _ => exact lookup_of_mem hk h
  | _ => cases h

theorem WellFormed.of_scalar (h : d.outline = .scalar) : d.WellFormed := by
  cases d with
  | null => exact .null
  | bool b => exact .bool b
  | number n => exact .number n
  | string s => exact .string s
  | _ => cases h

theorem WellFormed.singleton (hv : v.WellFormed) : (Document.object [(k, v)]).WellFormed := by
  refine .object (List.pairwise_singleton _ _) fun f hf ↦ ?_
  rw [List.mem_singleton.mp hf]
  exact hv

/-- The fields stand in the order of their keys. -/
theorem WellFormed.pairwise_fields (hd : d.WellFormed) :
    d.fields.Pairwise fun f g ↦ f.1 < g.1 := by
  cases hd with
  | object hk _ => exact List.pairwise_map.mp hk
  | _ => exact .nil

/-! ## Insertion -/

theorem mem_insertField {f : String × Document} (h : f ∈ insertField key value fs) :
    f = (key, value) ∨ f ∈ fs := by
  induction fs with
  | nil => exact .inl (List.mem_singleton.mp h)
  | cons g rest ih =>
    obtain ⟨k, v⟩ := g
    rw [insertField] at h
    split at h
    · exact List.mem_cons.mp h
    · split at h
      · exact (List.mem_cons.mp h).imp_right (List.mem_cons_of_mem _)
      · rcases List.mem_cons.mp h with rfl | h
        · exact .inr List.mem_cons_self
        · exact (ih h).imp_right (List.mem_cons_of_mem _)

/-- The keys stay in order. -/
theorem pairwise_insertField (h : (fs.map Prod.fst).Pairwise (· < ·)) :
    ((insertField key value fs).map Prod.fst).Pairwise (· < ·) := by
  induction fs with
  | nil => simp [insertField]
  | cons g rest ih =>
    obtain ⟨k, v⟩ := g
    obtain ⟨hk, hrest⟩ := List.pairwise_cons.mp h
    rw [insertField]
    split
    · rename_i hlt
      refine List.pairwise_cons.mpr ⟨?_, h⟩
      intro a ha
      rcases List.mem_cons.mp ha with rfl | ha
      · exact hlt
      · exact String.lt_trans hlt (hk a ha)
    · split
      · rename_i heq
        exact heq ▸ h
      · rename_i hnlt hne
        refine List.pairwise_cons.mpr ⟨?_, ih hrest⟩
        intro a ha
        obtain ⟨f, hf, rfl⟩ := List.mem_map.mp ha
        rcases mem_insertField hf with rfl | hf
        -- The new key is neither before `k` nor equal to it.
        · grind
        · exact hk _ (List.mem_map_of_mem hf)

theorem wellFormed_insertField (h : (object fs).WellFormed) (hv : value.WellFormed) :
    (object (insertField key value fs)).WellFormed := by
  cases h with
  | object hk hfs =>
    refine .object (pairwise_insertField hk) fun f hf ↦ ?_
    rcases mem_insertField hf with rfl | hf
    · exact hv
    · exact hfs f hf

theorem wellFormed_empty : empty.WellFormed :=
  .object List.Pairwise.nil fun _ hf ↦ absurd hf List.not_mem_nil

/-- Fields in any order make up a well-formed object. -/
theorem wellFormed_ofFields (h : ∀ f ∈ fs, f.2.WellFormed) : (ofFields fs).WellFormed :=
  List.foldlRecOn (motive := fun acc ↦ (object acc).WellFormed) fs _ wellFormed_empty
    fun _ hacc f hf ↦ wellFormed_insertField hacc (h f hf)

/-! ## Removal -/

/-- The fields without that of a key. -/
def removeField (key : String) (fs : List (String × Document)) : List (String × Document) :=
  fs.filter (·.1 ≠ key)

theorem lookup_removeField (key k : String) (fs : List (String × Document)) :
    (removeField key fs).lookup k = if k = key then none else fs.lookup k := by
  induction fs with
  | nil => simp [removeField]
  | cons f rest ih =>
    obtain ⟨k', v⟩ := f
    rw [removeField] at ih ⊢
    by_cases h : k' = key
    · rw [List.filter_cons_of_neg (by simpa using h), ih, lookup_cons_eq]
      grind
    · rw [List.filter_cons_of_pos (by simpa using h), lookup_cons_eq, lookup_cons_eq, ih]
      grind

theorem wellFormed_removeField (h : (object fs).WellFormed) :
    (object (removeField key fs)).WellFormed := by
  cases h with
  | object hk hfs =>
    refine .object ?_ fun f hf ↦ hfs f (List.mem_filter.mp hf).1
    exact hk.sublist (List.filter_sublist.map Prod.fst)

/-! ## Taking over a field -/

/-- The fields with that of a key as it is among other fields: with their value, or missing. -/
def takeField (key : String) (source fs : List (String × Document)) : List (String × Document) :=
  match source.lookup key with
  | some value => insertField key value fs
  | none => removeField key fs

theorem lookup_takeField (key k : String) (source fs : List (String × Document)) :
    (takeField key source fs).lookup k = if k = key then source.lookup k else fs.lookup k := by
  rw [takeField]
  split
  · rename_i value hvalue
    rw [lookup_insertField]
    grind
  · rename_i hvalue
    rw [lookup_removeField]
    grind

theorem wellFormed_takeField (h : (object fs).WellFormed) (hs : (object source).WellFormed) :
    (object (takeField key source fs)).WellFormed := by
  rw [takeField]
  split
  · rename_i value hvalue
    have hfield : (object source).child? (.key key) = some value := hvalue
    exact wellFormed_insertField h (hs.child hfield)
  · exact wellFormed_removeField h

end Document

end Interpolation
