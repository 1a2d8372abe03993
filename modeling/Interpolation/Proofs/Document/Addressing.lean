import Interpolation.Proofs.Document.Place

/-!
# What a pointer addresses

A pointer is written by two replacements in a row, the tilde first, since the second one brings in
tildes of its own; it is read by the two opposite replacements in the opposite order. The library
does both in one pass. That this comes to the same is shown first.

A pointer holds names only, and the number of an element is written like a key of digits. In one
document this leads to no confusion: what is met on the way is either an array or an object. So the
pointers to two places are equal only if the places are.
-/

namespace Interpolation

/-! ## One replacement after another -/

namespace Text

/-- Replaces every occurrence of a character by a text. -/
def replaceChar (c : Char) (new cs : List Char) : List Char :=
  cs.flatMap fun x ↦ if x = c then new else [x]

/-- Replaces every occurrence of two characters in a row by one character, from left to right. -/
def replacePair (a b new : Char) : List Char → List Char
  | x :: y :: cs =>
    if x = a ∧ y = b then new :: replacePair a b new cs else x :: replacePair a b new (y :: cs)
  | cs => cs

variable {a b new x : Char}

theorem replaceChar_self (c : Char) (text cs : List Char) :
    replaceChar c text (c :: cs) = text ++ replaceChar c text cs := by
  rw [replaceChar, List.flatMap_cons, if_pos rfl]
  rfl

theorem replaceChar_of_ne {c : Char} (h : x ≠ c) (text cs : List Char) :
    replaceChar c text (x :: cs) = x :: replaceChar c text cs := by
  rw [replaceChar, List.flatMap_cons, if_neg h]
  rfl

theorem replacePair_pair (a b new : Char) (cs : List Char) :
    replacePair a b new (a :: b :: cs) = new :: replacePair a b new cs := by
  rw [replacePair, if_pos ⟨rfl, rfl⟩]

/-- A character stays if no pair begins with it. -/
theorem replacePair_cons {cs : List Char} (h : x = a → cs.head? ≠ some b) :
    replacePair a b new (x :: cs) = x :: replacePair a b new cs := by
  rcases cs with _ | ⟨y, cs⟩
  · rfl
  · have hno : ¬ (x = a ∧ y = b) := fun hxy ↦ h hxy.1 (congrArg some hxy.2)
    rw [replacePair, if_neg hno]

/-- The first character stays, or is the one that replaces a pair. -/
theorem head?_replacePair (a b new : Char) (cs : List Char) :
    (replacePair a b new cs).head? = cs.head? ∨ (replacePair a b new cs).head? = some new := by
  fun_cases replacePair a b new cs with
  | case1 x y cs h => exact .inr rfl
  | case2 x y cs h => exact .inl rfl
  | case3 cs h => exact .inl rfl

end Text

open Text

namespace Pointer

/-- **Names are written** by replacing tildes, then slashes. -/
theorem escape_eq_replaceChar (cs : List Char) :
    escape cs = replaceChar '/' ['~', '1'] (replaceChar '~' ['~', '0'] cs) := by
  fun_induction escape cs with
  | case1 => rfl
  | case2 cs ih =>
    rw [replaceChar_self, List.cons_append, List.singleton_append, replaceChar_of_ne (by decide),
      replaceChar_of_ne (by decide), ih]
  | case3 cs ih => rw [replaceChar_of_ne (by decide), replaceChar_self, ih]; rfl
  | case4 c cs htilde hslash ih =>
    rw [replaceChar_of_ne htilde, replaceChar_of_ne hslash, ih]

/-- **Names are read** by replacing what stands for slashes, then what stands for tildes. -/
theorem unescape_eq_replacePair (cs : List Char) :
    unescape cs = replacePair '~' '0' '~' (replacePair '~' '1' '/' cs) := by
  fun_induction unescape cs with
  | case1 => rfl
  | case2 cs ih =>
    have hzero : replacePair '~' '1' '/' ('~' :: '0' :: cs) =
        '~' :: '0' :: replacePair '~' '1' '/' cs := by
      rw [replacePair_cons (by simp), replacePair_cons (by simp)]
    rw [hzero, replacePair_pair, ih]
  | case3 cs ih => rw [replacePair_pair, replacePair_cons (by simp), ih]
  | case4 c cs hzero hone ih =>
    have hone' : c = '~' → cs.head? ≠ some '1' := by
      intro hc hcs
      obtain ⟨tail, rfl⟩ := List.head?_eq_some_iff.mp hcs
      exact hone tail hc rfl
    -- The first replacement brings in slashes only, so no new pair for a tilde arises.
    have hzero' : c = '~' → (replacePair '~' '1' '/' cs).head? ≠ some '0' := by
      intro hc hcs
      rcases head?_replacePair '~' '1' '/' cs with h | h
      · rw [h] at hcs
        obtain ⟨tail, rfl⟩ := List.head?_eq_some_iff.mp hcs
        exact hzero tail hc rfl
      · rw [h] at hcs
        cases hcs
    rw [replacePair_cons hone', replacePair_cons hzero', ih]

end Pointer

/-! ## Places and names -/

namespace Document

variable {d v w : Document} {l m : List Step}

theorem follow?_name_cons {s : Step} {c : Document} (h : d.child? s = some c) (ns : List String) :
    d.follow? (s.name :: ns) = c.follow? ns := by
  obtain ⟨i, items, rfl, rfl, hi⟩ | ⟨k, fs, rfl, rfl, hk⟩ := child?_eq_some h
  · rw [Step.name, follow?, Pointer.index?_repr, Option.bind_some, hi, Option.bind_some]
  · rw [Step.name, follow?, hk, Option.bind_some]

/-- **A pointer addresses the place** whose steps it is made of. -/
theorem atPointer?_ofSteps (h : d.get? l = some v) : d.atPointer? (Pointer.ofSteps l) = some v := by
  rw [atPointer?, Pointer.names?_ofSteps, Option.bind_some]
  induction l generalizing d with
  | nil =>
    rw [get?, Option.some.injEq] at h
    rw [List.map_nil, follow?, h]
  | cons s l ih =>
    obtain ⟨c, hc, hget⟩ := Option.bind_eq_some_iff.mp h
    rw [List.map_cons, follow?_name_cons hc, ih hget]

theorem step_eq_of_name_eq {s t : Step} (hs : d.child? s = some v) (ht : d.child? t = some w)
    (h : s.name = t.name) : s = t := by
  obtain ⟨i, j, rfl, rfl⟩ | ⟨k, k', rfl, rfl⟩ := steps_of_one_kind hs ht
  · have hij := congrArg Pointer.index? h
    rw [Step.name, Step.name, Pointer.index?_repr, Pointer.index?_repr] at hij
    exact congrArg Step.index (Option.some.inj hij)
  · exact congrArg Step.key h

theorem eq_of_map_name_eq (hl : d.get? l = some v) (hm : d.get? m = some w)
    (h : l.map Step.name = m.map Step.name) : l = m := by
  induction l generalizing d m with
  | nil => exact (List.map_eq_nil_iff.mp h.symm).symm
  | cons s l ih =>
    obtain ⟨t, m', rfl, hname, htail⟩ := List.map_eq_cons_iff.mp h.symm
    obtain ⟨x, hx, hl⟩ := Option.bind_eq_some_iff.mp hl
    obtain ⟨y, hy, hm⟩ := Option.bind_eq_some_iff.mp hm
    obtain rfl : s = t := step_eq_of_name_eq hx hy hname.symm
    obtain rfl : x = y := Option.some.inj (hx.symm.trans hy)
    rw [ih hl hm htail.symm]

/-- **In one document** the pointers to two places are equal only if the places are. -/
theorem ofSteps_eq_iff (hl : d.get? l = some v) (hm : d.get? m = some w) :
    Pointer.ofSteps l = Pointer.ofSteps m ↔ l = m := by
  constructor
  · intro h
    have hnames := congrArg Pointer.names? h
    rw [Pointer.names?_ofSteps, Pointer.names?_ofSteps] at hnames
    exact eq_of_map_name_eq hl hm (Option.some.inj hnames)
  · rintro rfl
    rfl

end Document

end Interpolation
