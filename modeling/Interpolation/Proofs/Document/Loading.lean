import Mathlib
import Interpolation.Proofs.Document.WellFormed
import Interpolation.Yaml.Loading

/-!
# Loaded documents

A document is loaded node by node. Scalars become documents without parts, and the fields of an
object are brought into order wherever there is a mapping. So a loaded document is well-formed,
whatever the text is, and whatever its aliases stand for.
-/

namespace Interpolation

open Document

namespace Yaml

variable {d : Document}

theorem Meaning.wellFormed_of_toDocument? {m : Meaning} {s : String}
    (h : m.toDocument? s = some d) : d.WellFormed := by
  refine .of_scalar ?_
  cases m <;> cases h <;> rfl

namespace Node

variable {anchors : Anchored} {inner : Loader} {budget rest : Nat}

/-- A loader that loads nothing but well-formed documents. -/
def Loader.Sound (inner : Loader) : Prop :=
  ∀ n budget d rest, inner n budget = some (d, rest) → d.WellFormed

theorem wellFormed_of_addItem (hinner : inner.Sound) {before after : List Document × Nat}
    {item : Node} (hbefore : ∀ d ∈ before.1, d.WellFormed)
    (h : addItem inner before item = some after) : ∀ d ∈ after.1, d.WellFormed := by
  obtain ⟨⟨d, left⟩, hd, heq⟩ := Option.bind_eq_some_iff.mp h
  cases heq
  exact List.forall_mem_cons.mpr ⟨hinner _ _ _ _ hd, hbefore⟩

theorem wellFormed_of_addField (hinner : inner.Sound)
    {before after : List (String × Document) × Nat} {entry : Node × Node}
    (hbefore : ∀ f ∈ before.1, f.2.WellFormed)
    (h : addField anchors inner before entry = some after) : ∀ f ∈ after.1, f.2.WellFormed := by
  obtain ⟨⟨k, left⟩, -, h⟩ := Option.bind_eq_some_iff.mp h
  cases k with
  | scalar p plain name =>
    obtain ⟨⟨d, left⟩, hd, heq⟩ := Option.bind_eq_some_iff.mp h
    cases heq
    exact List.forall_mem_cons.mpr ⟨hinner _ _ _ _ hd, hbefore⟩
  | _ => cases h

/-- What is collected step by step has a property if every step keeps it. -/
theorem forall_mem_of_foldlM {α β : Type} {P : α → Prop}
    {step : List α × Nat → β → Option (List α × Nat)} {as : List α} {bs : List β}
    (hstep : ∀ {before after : List α × Nat} {b : β}, (∀ a ∈ before.1, P a) →
      step before b = some after → ∀ a ∈ after.1, P a)
    (h : bs.foldlM step ([], budget) = some (as, rest)) : ∀ a ∈ as, P a := by
  have hall : SatisfiesM (fun acc ↦ ∀ a ∈ acc.1, P a) (bs.foldlM step ([], budget)) :=
    List.satisfiesM_foldlM (List.forall_mem_nil P) fun before hbefore b _ ↦
      SatisfiesM_Option_eq.mpr fun after ↦ hstep hbefore
  exact SatisfiesM_Option_eq.mp hall _ h

/-- **One level.** -/
theorem sound_loadLevel {deeper : Option Loader} (hdeeper : ∀ inner ∈ deeper, inner.Sound) :
    (loadLevel anchors deeper).Sound := by
  intro n budget d rest h
  obtain ⟨⟨n, left⟩, -, h⟩ := Option.bind_eq_some_iff.mp h
  simp only at h
  split at h
  · cases h
  cases n with
  | aliasOf a => cases h
  | scalar p plain s =>
    obtain ⟨m, -, h⟩ := Option.bind_eq_some_iff.mp h
    obtain ⟨d, hd, heq⟩ := Option.bind_eq_some_iff.mp h
    cases heq
    exact Meaning.wellFormed_of_toDocument? hd
  | sequence p items =>
    obtain ⟨inner, hinner, h⟩ := Option.bind_eq_some_iff.mp h
    obtain ⟨⟨ds, left'⟩, hfold, heq⟩ := Option.bind_eq_some_iff.mp h
    cases heq
    have hds : ∀ d ∈ ds, d.WellFormed :=
      forall_mem_of_foldlM (wellFormed_of_addItem (hdeeper inner hinner)) hfold
    exact .array fun d hd ↦ hds d (List.mem_reverse.mp hd)
  | mapping p entries =>
    obtain ⟨inner, hinner, h⟩ := Option.bind_eq_some_iff.mp h
    obtain ⟨⟨fs, left'⟩, hfold, heq⟩ := Option.bind_eq_some_iff.mp h
    cases heq
    have hfs : ∀ f ∈ fs, f.2.WellFormed :=
      forall_mem_of_foldlM (wellFormed_of_addField (hdeeper inner hinner)) hfold
    exact wellFormed_ofFields fun f hf ↦ hfs f (List.mem_reverse.mp hf)

/-- **All levels.** -/
theorem sound_load (levels : Nat) : (load anchors levels).Sound := by
  induction levels with
  | zero => exact sound_loadLevel fun _ hinner ↦ nomatch hinner
  | succ levels ih => exact sound_loadLevel fun inner hinner ↦ Option.some.inj hinner ▸ ih

end Node

end Yaml

namespace Document

/-- **What is loaded is well-formed.** -/
theorem wellFormed_of_ofYaml? {text : String} {d : Document} (h : ofYaml? text = some d) :
    d.WellFormed := by
  rw [ofYaml?] at h
  split at h
  · cases h
    exact wellFormed_empty
  obtain ⟨tokens, -, h⟩ := Option.bind_eq_some_iff.mp h
  obtain ⟨tokens, -, h⟩ := Option.bind_eq_some_iff.mp h
  obtain ⟨n, -, h⟩ := Option.bind_eq_some_iff.mp h
  cases n with
  | none =>
    cases h
    exact .null
  | some n =>
    obtain ⟨⟨d, rest⟩, hd, heq⟩ := Option.bind_eq_some_iff.mp h
    cases heq
    exact Yaml.Node.sound_load _ _ _ _ _ hd

end Document

end Interpolation
