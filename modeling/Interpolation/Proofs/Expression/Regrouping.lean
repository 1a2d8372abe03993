import Interpolation.Proofs.Expression.Dependence

/-!
# Regrouping

Parentheses decide which tree an expression is read as, but the value of the tree does not depend on
them. Neither does it matter from which side a chain of one connective is nested: all three
connectives are associative, with their values, their paths and their errors.

Two trees that differ in nothing else have one common form, in which there are no parentheses and
every chain is nested to the right, as the reader nests it. So it is enough to go from a tree to
this form. `Alike` is what has to be kept on the way: a tree may be replaced by one that evaluates
alike everywhere and reads the same root names, also within a larger tree.
-/

namespace Interpolation

namespace Tree

/-! ## The common form -/

/-- The tree without its parentheses. -/
def bare : Tree → Tree
  | name s => name s
  | quoted s => quoted s
  | group t => t.bare
  | join c l r => join c l.bare r.bare

/-- Puts `r` at the end of the chain of `c` that a tree is, or joins it with a tree that is none. -/
def chain (c : Connective) : Tree → Tree → Tree
  | join d l m, r => if d = c then join c l (chain c m r) else join c (join d l m) r
  | t, r => join c t r

/-- The tree with all its chains of one connective nested to the right. -/
def rightNested : Tree → Tree
  | name s => name s
  | quoted s => quoted s
  | group t => group t.rightNested
  | join c l r => chain c l.rightNested r.rightNested

/-- No chain of one connective goes on to the left. -/
def RightNested : Tree → Prop
  | name _ => True
  | quoted _ => True
  | group t => t.RightNested
  | join c l r => l.root? ≠ some c ∧ l.RightNested ∧ r.RightNested

variable {c : Connective} {t u l r : Tree}

theorem chain_of_root?_ne (h : l.root? ≠ some c) (r : Tree) : chain c l r = join c l r := by
  cases l with
  | join d a b =>
    have hne : d ≠ c := fun hd ↦ h (congrArg some hd)
    rw [chain, if_neg hne]
  | _ => rfl

theorem chain_join (c : Connective) (a b r : Tree) :
    chain c (join c a b) r = join c a (chain c b r) := by
  rw [chain, if_pos rfl]

theorem rightNested_chain (hl : l.RightNested) (hr : r.RightNested) :
    (chain c l r).RightNested := by
  induction l with
  | join d a b _ ihb =>
    obtain ⟨hroot, ha, hb⟩ := hl
    by_cases hd : d = c
    · subst hd
      rw [chain_join]
      exact ⟨hroot, ha, ihb hb⟩
    · have hne : (join d a b).root? ≠ some c := fun h ↦ hd (Option.some.inj h)
      rw [chain_of_root?_ne hne]
      exact ⟨hne, ⟨hroot, ha, hb⟩, hr⟩
  | _ => exact ⟨by simp [root?], hl, hr⟩

/-- The common form is right-nested. -/
theorem rightNested_rightNested (t : Tree) : t.rightNested.RightNested := by
  induction t with
  | name s => trivial
  | quoted s => trivial
  | group t ih => exact ih
  | join c l r ihl ihr => exact rightNested_chain ihl ihr

/-- What is right-nested stays as it is. -/
theorem rightNested_eq_self (h : t.RightNested) : t.rightNested = t := by
  induction t with
  | name s => rfl
  | quoted s => rfl
  | group t ih => rw [rightNested, ih h]
  | join c l r ihl ihr =>
    obtain ⟨hroot, hl, hr⟩ := h
    rw [rightNested, ihl hl, ihr hr, chain_of_root?_ne hroot]

theorem tokens_chain (c : Connective) (l r : Tree) :
    (chain c l r).tokens = (join c l r).tokens := by
  induction l with
  | join d a b _ ihb =>
    by_cases hd : d = c
    · subst hd
      rw [chain_join, tokens, ihb]
      simp [tokens]
    · have hne : (join d a b).root? ≠ some c := fun h ↦ hd (Option.some.inj h)
      rw [chain_of_root?_ne hne]
  | _ => rfl

/-- Nesting a chain otherwise does not change the order in which it is read. -/
theorem tokens_rightNested (t : Tree) : t.rightNested.tokens = t.tokens := by
  induction t with
  | name s => rfl
  | quoted s => rfl
  | group t ih => rw [rightNested, tokens, tokens, ih]
  | join c l r ihl ihr => rw [rightNested, tokens_chain, tokens, tokens, ihl, ihr]

/-! ## Trees that may replace each other -/

/-- The trees evaluate alike in every context, and read the same root names. -/
structure Alike (t u : Tree) : Prop where
  evaluate_eq : ∀ context path, t.evaluate context path = u.evaluate context path
  rootNames_eq : t.rootNames = u.rootNames

theorem Alike.refl (t : Tree) : t.Alike t := ⟨fun _ _ ↦ rfl, rfl⟩

theorem Alike.symm (h : t.Alike u) : u.Alike t :=
  ⟨fun context path ↦ (h.evaluate_eq context path).symm, h.rootNames_eq.symm⟩

theorem Alike.trans {w : Tree} (h : t.Alike u) (h' : u.Alike w) : t.Alike w :=
  ⟨fun context path ↦ (h.evaluate_eq context path).trans (h'.evaluate_eq context path),
    h.rootNames_eq.trans h'.rootNames_eq⟩

/-- **Within a larger tree.** The sides of a connective may be replaced. -/
theorem Alike.join {l' r' : Tree} (c : Connective) (hl : l.Alike l') (hr : r.Alike r') :
    (join c l r).Alike (join c l' r') := by
  constructor
  · intro context path
    cases c with
    | dot =>
      rw [evaluate_dot, evaluate_dot, hl.evaluate_eq]
      simp only [hr.evaluate_eq]
    | or => rw [evaluate_or, evaluate_or, hl.evaluate_eq, hr.evaluate_eq]
    | and => rw [evaluate_and, evaluate_and, hl.evaluate_eq, hr.evaluate_eq]
  · cases c with
    | dot => exact hl.rootNames_eq
    | _ => simp only [rootNames, hl.rootNames_eq, hr.rootNames_eq]

/-- Parentheses are looked through. -/
theorem alike_group (t : Tree) : (group t).Alike t := ⟨fun _ _ ↦ rfl, rfl⟩

theorem Alike.group (h : t.Alike u) : (group t).Alike (group u) :=
  (alike_group t).trans (h.trans (alike_group u).symm)

/-- **The connectives are associative.** -/
theorem alike_assoc (c : Connective) (a b d : Tree) :
    (join c (join c a b) d).Alike (join c a (join c b d)) := by
  constructor
  · intro context path
    cases c with
    | dot =>
      simp only [evaluate_dot]
      cases a.evaluate context path <;> rfl
    | or =>
      simp only [evaluate_or]
      rcases a.evaluate context path with e | x
      · rfl
      -- A true value is kept by both connectives, any other by none.
      · by_cases hx : x.value.isTruthy
        · simp only [Except.bind, if_pos hx]
        · simp only [Except.bind, if_neg hx]
    | and =>
      simp only [evaluate_and]
      rcases a.evaluate context path with e | x
      · rfl
      · by_cases hx : x.value.isTruthy
        · simp only [Except.bind, if_pos hx]
        · simp only [Except.bind, if_neg hx]
  · cases c with
    | dot => rfl
    | _ => simp only [rootNames, List.append_assoc]

/-! ## The way to the common form -/

theorem alike_bare (t : Tree) : t.bare.Alike t := by
  induction t with
  | name s => exact .refl _
  | quoted s => exact .refl _
  | group t ih => exact ih.trans (alike_group t).symm
  | join c l r ihl ihr => exact .join c ihl ihr

theorem alike_chain (c : Connective) (l r : Tree) : (chain c l r).Alike (join c l r) := by
  induction l with
  | join d a b _ ihb =>
    by_cases hd : d = c
    · subst hd
      rw [chain_join]
      exact (Alike.join d (.refl a) ihb).trans (alike_assoc d a b r).symm
    · have hne : (join d a b).root? ≠ some c := fun h ↦ hd (Option.some.inj h)
      rw [chain_of_root?_ne hne]
      exact .refl _
  | _ => exact .refl _

theorem alike_rightNested (t : Tree) : t.rightNested.Alike t := by
  induction t with
  | name s => exact .refl _
  | quoted s => exact .refl _
  | group t ih => exact ih.group
  | join c l r ihl ihr => exact (alike_chain c _ _).trans (.join c ihl ihr)

/-- **Regrouping makes no difference.** Trees that are equal once their parentheses are taken away
and their chains of one connective are nested to the right have the same value and path, or the same
error, in every context, and they list the same root names, in the same order and as often. -/
theorem evaluate_eq_of_regrouped (h : t.bare.rightNested = u.bare.rightNested) :
    (∀ context path, t.evaluate context path = u.evaluate context path) ∧
      t.names [] = u.names [] := by
  have ht : t.bare.rightNested.Alike t := (alike_rightNested t.bare).trans (alike_bare t)
  have hu : u.bare.rightNested.Alike u := (alike_rightNested u.bare).trans (alike_bare u)
  rw [h] at ht
  have halike : t.Alike u := ht.symm.trans hu
  exact ⟨halike.evaluate_eq, by rw [names_nil, names_nil, halike.rootNames_eq]⟩

/-- `((a.b).c || (d || e)) || f` and `a.b.c || d || e || f`. -/
theorem evaluate_eq_of_regrouped_left_nested :
    let t := join .or (group (join .or
      (join .dot (group (join .dot (name "a") (name "b"))) (name "c"))
      (group (join .or (name "d") (name "e"))))) (name "f")
    let u := join .or (join .dot (name "a") (join .dot (name "b") (name "c")))
      (join .or (name "d") (join .or (name "e") (name "f")))
    t.bare.rightNested = u.bare.rightNested ∧
      (∀ context path, t.evaluate context path = u.evaluate context path) ∧
        t.names [] = u.names [] := by
  intro t u
  have h : t.bare.rightNested = u.bare.rightNested := by decide
  exact ⟨h, evaluate_eq_of_regrouped h⟩

end Tree

end Interpolation
