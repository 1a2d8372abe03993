import Interpolation.Proofs.Manifest.Walk

/-!
# Entries and their places

An entry keeps the steps that lead to it, its key and its value. In a document whose objects have
every key once, the value is what lies at the place: walking to a map and taking one of its fields
is the same as going through all the steps from the root.
-/

namespace Interpolation

open Text

namespace Entry

variable {e : Entry} {d : Document} {path : String}

/-- The entries of a path are the fields of what its walks reach. -/
theorem mem_ofPath_iff : e ∈ ofPath path d ↔ Spells (dotted path) e.steps ∧
    ∃ env, d.get? e.steps = some env ∧ (e.key, e.value) ∈ env.fields := by
  rw [ofPath, List.mem_flatMap]
  constructor
  · rintro ⟨⟨steps, env⟩, hwalk, h⟩
    obtain ⟨⟨k, v⟩, hkv, rfl⟩ := List.mem_map.mp h
    obtain ⟨hspells, hget⟩ := Document.mem_walks_iff.mp hwalk
    exact ⟨hspells, env, hget, hkv⟩
  · rintro ⟨hspells, env, hget, hkv⟩
    exact ⟨(e.steps, env), Document.mem_walks_iff.mpr ⟨hspells, hget⟩,
      List.mem_map.mpr ⟨(e.key, e.value), hkv, rfl⟩⟩

theorem get?_location_of_mem_ofPath (hd : d.WellFormed) (h : e ∈ ofPath path d) :
    d.get? e.location = some e.value := by
  obtain ⟨-, env, henv, hkv⟩ := mem_ofPath_iff.mp h
  rw [location, Document.get?_append, henv, Option.bind_some, Document.get?_singleton,
    Document.child?_key]
  exact (hd.get henv).field?_of_mem hkv

/-- **The value of an entry lies at its place.** -/
theorem get?_location {paths : List String} (hd : d.WellFormed) (h : e ∈ ofPaths paths d) :
    d.get? e.location = some e.value := by
  obtain ⟨path, -, he⟩ := List.mem_flatMap.mp h
  exact get?_location_of_mem_ofPath hd he

end Entry

end Interpolation
