import Interpolation.Proofs.Document.WellFormed

/-!
# Documents that differ in scalars only

`SameBut places d d'` says that a document has the containers of another one and, except at some
places, its scalars as well. The relation can be looked at from any place downwards. Where nothing
is excepted, it is equality: every part of a document is reached by steps, and a well-formed object
has no fields beside those that its keys lead to.
-/

namespace Interpolation

namespace Document

/-- `d'` is `d`, but for the scalars at some places. -/
structure SameBut (places : List Step → Prop) (d d' : Document) : Prop where
  outline_eq : ∀ l, (d'.get? l).map outline = (d.get? l).map outline
  kept : ∀ l v, d.get? l = some v → v.outline = .scalar → ¬ places l → d'.get? l = some v

namespace SameBut

variable {places : List Step → Prop} {d d' v : Document} {l : List Step}

theorem mono {more : List Step → Prop} (h : SameBut places d d') (hp : ∀ l, places l → more l) :
    SameBut more d d' where
  outline_eq := h.outline_eq
  kept l v hv hs hl := h.kept l v hv hs fun hpl ↦ hl (hp l hpl)

theorem outline_root (h : SameBut places d d') : d'.outline = d.outline :=
  Option.some.inj (h.outline_eq [])

/-- What two documents have below a place is the same as well. -/
theorem exists_below (h : SameBut places d d') (hv : d.get? l = some v) :
    ∃ v', d'.get? l = some v' ∧ SameBut (fun m ↦ places (l ++ m)) v v' := by
  have hl := h.outline_eq l
  rw [hv, Option.map_some] at hl
  obtain ⟨v', hv', -⟩ := Option.map_eq_some_iff.mp hl
  have hbelow : ∀ m, d.get? (l ++ m) = v.get? m := fun m ↦ by rw [get?_append, hv, Option.bind_some]
  have hbelow' : ∀ m, d'.get? (l ++ m) = v'.get? m :=
    fun m ↦ by rw [get?_append, hv', Option.bind_some]
  refine ⟨v', hv', fun m ↦ ?_, fun m x hx hs hm ↦ ?_⟩
  · rw [← hbelow, ← hbelow']
    exact h.outline_eq (l ++ m)
  · rw [← hbelow] at hx
    rw [← hbelow']
    exact h.kept (l ++ m) x hx hs hm

theorem exists_child {s : Step} (h : SameBut places d d') (hv : d.child? s = some v) :
    ∃ v', d'.child? s = some v' ∧ SameBut (fun m ↦ places (s :: m)) v v' := by
  rw [← get?_singleton] at hv
  obtain ⟨v', hv', hbelow⟩ := h.exists_below hv
  rw [get?_singleton] at hv'
  exact ⟨v', hv', hbelow⟩

/-- An array stays one, and its elements are the same but for their scalars. -/
theorem exists_array {items : List Document} (h : SameBut places (array items) d') :
    ∃ items', d' = array items' ∧ items'.length = items.length ∧
      ∀ i (hi : i < items.length) (hi' : i < items'.length),
        SameBut (fun m ↦ places (.index i :: m)) items[i] items'[i] := by
  have houtline := h.outline_root
  cases d' with
  | array items' =>
    refine ⟨items', rfl, Outline.array.inj houtline, fun i hi hi' ↦ ?_⟩
    have hchild : (array items).child? (.index i) = some items[i] := List.getElem?_eq_getElem hi
    have hchild' : (array items').child? (.index i) = some items'[i] :=
      List.getElem?_eq_getElem hi'
    obtain ⟨x, hx, hbelow⟩ := h.exists_child hchild
    obtain rfl : items'[i] = x := Option.some.inj (hchild'.symm.trans hx)
    exact hbelow
  | _ => cases houtline

/-- An object stays one with the same keys, and its values are the same but for their scalars. -/
theorem exists_object {fs : List (String × Document)} (hk : (fs.map Prod.fst).Pairwise (· < ·))
    (h : SameBut places (object fs) d') :
    ∃ fs', d' = object fs' ∧ fs'.map Prod.fst = fs.map Prod.fst ∧
      ∀ i (hi : i < fs.length) (hi' : i < fs'.length), fs'[i].1 = fs[i].1 ∧
        SameBut (fun m ↦ places (.key fs[i].1 :: m)) fs[i].2 fs'[i].2 := by
  have houtline := h.outline_root
  cases d' with
  | object fs' =>
    have hkeys : fs'.map Prod.fst = fs.map Prod.fst := Outline.object.inj houtline
    refine ⟨fs', rfl, hkeys, fun i hi hi' ↦ ?_⟩
    have hkey : fs'[i].1 = fs[i].1 := by
      have hget := congrArg (fun ks ↦ ks[i]?) hkeys
      simpa [hi, hi'] using hget
    -- Both fields have the same key, which leads to their values.
    have hchild : (object fs).child? (.key fs[i].1) = some fs[i].2 :=
      lookup_of_mem hk (List.getElem_mem hi)
    have hchild' : (object fs').child? (.key fs[i].1) = some fs'[i].2 := by
      rw [← hkey]
      exact lookup_of_mem (hkeys ▸ hk) (List.getElem_mem hi')
    obtain ⟨x, hx, hbelow⟩ := h.exists_child hchild
    obtain rfl : fs'[i].2 = x := Option.some.inj (hchild'.symm.trans hx)
    exact ⟨hkey, hbelow⟩
  | _ => cases houtline

theorem eq_of_scalar (h : SameBut places d d') (hp : ∀ l, ¬ places l) (hs : d.outline = .scalar) :
    d' = d :=
  Option.some.inj (h.kept [] d rfl hs (hp []))

/-- **Without an exception the documents are equal.** -/
theorem eq (h : SameBut places d d') (hd : d.WellFormed) (hp : ∀ l, ¬ places l) : d' = d := by
  induction hd generalizing d' places with
  | null => exact h.eq_of_scalar hp rfl
  | bool b => exact h.eq_of_scalar hp rfl
  | number n => exact h.eq_of_scalar hp rfl
  | string s => exact h.eq_of_scalar hp rfl
  | @array items hitems ih =>
    obtain ⟨items', rfl, hlength, hbelow⟩ := h.exists_array
    refine congrArg array (List.ext_getElem hlength fun i hi' hi ↦ ?_)
    exact ih _ (List.getElem_mem hi) (hbelow i hi hi') fun m ↦ hp _
  | @object fs hk hfs ih =>
    obtain ⟨fs', rfl, hkeys, hbelow⟩ := h.exists_object hk
    have hlength : fs'.length = fs.length := by simpa using congrArg List.length hkeys
    refine congrArg object (List.ext_getElem hlength fun i hi' hi ↦ ?_)
    obtain ⟨hkey, hvalue⟩ := hbelow i hi hi'
    exact Prod.ext hkey (ih _ (List.getElem_mem hi) hvalue fun m ↦ hp _)

/-- The keys stay in order, whatever is excepted. -/
theorem wellFormed (h : SameBut places d d') (hd : d.WellFormed) : d'.WellFormed := by
  induction hd generalizing d' places with
  | null => exact .of_scalar h.outline_root
  | bool b => exact .of_scalar h.outline_root
  | number n => exact .of_scalar h.outline_root
  | string s => exact .of_scalar h.outline_root
  | @array items hitems ih =>
    obtain ⟨items', rfl, hlength, hbelow⟩ := h.exists_array
    refine .array fun x hx ↦ ?_
    obtain ⟨i, hi', rfl⟩ := List.mem_iff_getElem.mp hx
    have hi : i < items.length := hlength ▸ hi'
    exact ih _ (List.getElem_mem hi) (hbelow i hi hi')
  | @object fs hk hfs ih =>
    obtain ⟨fs', rfl, hkeys, hbelow⟩ := h.exists_object hk
    refine .object (hkeys ▸ hk) fun f hf ↦ ?_
    obtain ⟨i, hi', rfl⟩ := List.mem_iff_getElem.mp hf
    have hlength : fs'.length = fs.length := by simpa using congrArg List.length hkeys
    have hi : i < fs.length := hlength ▸ hi'
    exact ih _ (List.getElem_mem hi) (hbelow i hi hi').2

end SameBut

end Document

end Interpolation
