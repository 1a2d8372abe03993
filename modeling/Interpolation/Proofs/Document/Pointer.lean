import Interpolation.Document.Pointer

/-!
# Pointers are read back

A pointer is made of the names of steps, and reading it gives these names again: no written name
contains a slash, since a slash in a name is written `~1`. The number of an element is the one name
that is not a key; it is written in decimal digits and read back from them.
-/

namespace Interpolation

open Text

/-! ## Names -/

theorem Text.pieces_of_notMem {sep : Char} {cs : List Char} (h : sep ∉ cs) :
    pieces sep cs = [cs] := by
  induction cs with
  | nil => rfl
  | cons c cs ih =>
    rw [List.mem_cons, not_or] at h
    rw [pieces, if_neg (Ne.symm h.1), ih h.2]

theorem Text.pieces_append {sep : Char} {cs : List Char} (h : sep ∉ cs) (rest : List Char) :
    pieces sep (cs ++ sep :: rest) = cs :: pieces sep rest := by
  induction cs with
  | nil => rw [List.nil_append, pieces, if_pos rfl]
  | cons c cs ih =>
    rw [List.mem_cons, not_or] at h
    rw [List.cons_append, pieces, if_neg (Ne.symm h.1), ih h.2]

namespace Pointer

theorem slash_notMem_escape (cs : List Char) : '/' ∉ escape cs := by
  fun_induction escape cs <;> simp_all [eq_comm]

theorem pieces_escape (name : List Char) (names : List (List Char)) :
    pieces '/' (escape name ++ names.flatMap fun n ↦ '/' :: escape n) =
      (name :: names).map escape := by
  induction names generalizing name with
  | nil =>
    rw [List.flatMap_nil, List.append_nil, pieces_of_notMem (slash_notMem_escape name)]
    rfl
  | cons n names ih =>
    rw [List.flatMap_cons, List.cons_append, pieces_append (slash_notMem_escape name), ih,
      List.map_cons, List.map_cons, List.map_cons]

/-- **Reading a pointer** gives the names of its steps. -/
theorem names?_ofSteps (steps : List Step) :
    names? (ofSteps steps) = some (steps.map Step.name) := by
  rw [names?, ofSteps, String.toList_ofList]
  cases steps with
  | nil => rfl
  | cons s steps =>
    -- Between the slashes there are the written names, one for each step.
    have h := pieces_escape s.name.toList (steps.map fun s ↦ s.name.toList)
    rw [List.flatMap_map] at h
    rw [List.flatMap_cons, List.cons_append]
    simp only [h, List.map_map, ← List.map_cons (f := fun s : Step ↦ s.name.toList)]
    simp [Function.comp_def, unescape_escape]

/-! ## Numbers of elements -/

theorem head?_toDigits_ne_zero {n : Nat} (h : 0 < n) : (Nat.toDigits 10 n).head? ≠ some '0' := by
  induction n using Nat.strongRecOn with
  | ind n ih =>
    rw [Nat.toDigits_eq_if (by decide)]
    split
    · simp only [List.head?_cons, ne_eq, Option.some.injEq, Nat.digitChar_eq_zero]
      omega
    -- With more than one digit, the first one is that of the quotient.
    · have hlt : n / 10 < n := Nat.div_lt_self h (by decide)
      obtain ⟨d, ds, hd⟩ := List.exists_cons_of_ne_nil (Nat.toDigits_ne_nil (n := n / 10) (b := 10))
      have hhead := ih (n / 10) hlt (by omega)
      rw [hd] at hhead ⊢
      exact hhead

theorem digitValue?_of_isDigit {c : Char} (h : c.isDigit = true) :
    Decimal.digitValue? c = some (c.toNat - '0'.toNat) ∧ c.toNat - '0'.toNat < 10 := by
  rw [Char.isDigit, Bool.and_eq_true, decide_eq_true_iff, decide_eq_true_iff] at h
  have hlow : '0' ≤ c := h.1
  have hhigh : c ≤ '9' := h.2
  refine ⟨by rw [Decimal.digitValue?, if_pos ⟨hlow, hhigh⟩], ?_⟩
  have hnat : c.toNat ≤ '9'.toNat := hhigh
  have h9 : '9'.toNat = 57 := rfl
  have h0 : '0'.toNat = 48 := rfl
  omega

/-- Digits are read from left to right, as the library reads them. -/
theorem natOfDigits?_of_isDigit {cs : List Char} (h : ∀ c ∈ cs, c.isDigit = true) (hne : cs ≠ []) :
    Decimal.natOfDigits? 10 cs = some (Nat.ofDigitChars 10 cs 0) := by
  have hfold : ∀ n : Nat, cs.foldl (fun acc c ↦ do
      let n ← acc
      let d ← Decimal.digitValue? c
      if d < 10 then some (n * 10 + d) else none) (some n) =
        some (Nat.ofDigitChars 10 cs n) := by
    clear hne
    induction cs with
    | nil => intro n; rfl
    | cons c cs ih =>
      intro n
      obtain ⟨hd, hlt⟩ := digitValue?_of_isDigit (h c List.mem_cons_self)
      rw [List.foldl_cons, Nat.ofDigitChars_cons, Nat.mul_comm 10 n,
        ← ih fun d hd ↦ h d (List.mem_cons_of_mem c hd)]
      simp only [hd, Option.bind_eq_bind, Option.bind_some, if_pos hlt]
  rw [Decimal.natOfDigits?]
  · exact hfold 0
  · exact hne

/-- The number of an element is read back from its name. -/
theorem index?_repr (i : Nat) : index? i.repr = some i := by
  have hdigits : ∀ c ∈ Nat.toDigits 10 i, c.isDigit = true :=
    fun c hc ↦ Nat.isDigit_of_mem_toDigits (by decide) (by decide) hc
  rw [index?, Nat.toList_repr]
  split
  · rename_i h
    have hi := Nat.ofDigitChars_ten_toDigits (n := i)
    rw [h] at hi
    rw [← hi]
    rfl
  · rename_i tail hne h
    rcases Nat.eq_zero_or_pos i with rfl | hpos
    · rw [Nat.toDigits_zero] at h
      exact absurd h (by simpa using hne)
    · exact absurd (by rw [h, List.head?_cons]) (head?_toDigits_ne_zero hpos)
  · rw [if_pos (List.all_eq_true.mpr hdigits), natOfDigits?_of_isDigit hdigits Nat.toDigits_ne_nil,
      Nat.ofDigitChars_ten_toDigits]

end Pointer

end Interpolation
