import Interpolation.Proofs.Expression.Writing

/-!
# How high an expression is

What recursion over a tree costs is its height, but what the reader limits is the nesting, in which
the left side of a connective does not count. The height is limited all the same. A connective has
stronger ones on its left only, so three of them can follow each other to the left, and what stands
to the left of the third is an operand: a leaf, or parentheses, which open a level. Hence a level
has at most four nodes on any way from the root to a leaf, and the last level, where nothing can
open another, has one.

This is as good as it gets: some expressions have four nodes on every level.
-/

namespace Interpolation

namespace Tree

/-- The ways from the root to the leaves, each with all trees on it. -/
def branches : Tree → List (List Tree)
  | name s => [[name s]]
  | quoted s => [[quoted s]]
  | group t => t.branches.map (group t :: ·)
  | join c l r => (l.branches ++ r.branches).map (join c l r :: ·)

variable {t : Tree} {b : List Tree}

theorem length_le_height (h : b ∈ t.branches) : b.length ≤ t.height := by
  induction t generalizing b with
  | name s =>
    rw [List.mem_singleton.mp h]
    exact Nat.le_refl 1
  | quoted s =>
    rw [List.mem_singleton.mp h]
    exact Nat.le_refl 1
  | group t ih =>
    obtain ⟨more, hmore, rfl⟩ := List.mem_map.mp h
    have hle := ih hmore
    rw [List.length_cons, height]
    omega
  | join c l r ihl ihr =>
    obtain ⟨more, hmore, rfl⟩ := List.mem_map.mp h
    rw [List.length_cons, height]
    rcases List.mem_append.mp hmore with hl | hr
    · have hle := ihl hl
      omega
    · have hle := ihr hr
      omega

/-- The height is the length of some branch. -/
theorem exists_length_eq_height (t : Tree) : ∃ b ∈ t.branches, b.length = t.height := by
  induction t with
  | name s => exact ⟨[name s], List.mem_singleton_self _, rfl⟩
  | quoted s => exact ⟨[quoted s], List.mem_singleton_self _, rfl⟩
  | group t ih =>
    obtain ⟨b, hb, hlen⟩ := ih
    refine ⟨group t :: b, List.mem_map.mpr ⟨b, hb, rfl⟩, ?_⟩
    rw [List.length_cons, height, hlen, Nat.add_comm]
  | join c l r ihl ihr =>
    obtain ⟨bl, hbl, hl⟩ := ihl
    obtain ⟨br, hbr, hr⟩ := ihr
    by_cases hle : l.height ≤ r.height
    · refine ⟨join c l r :: br, List.mem_map.mpr ⟨br, List.mem_append_right _ hbr, rfl⟩, ?_⟩
      rw [List.length_cons, height, hr]
      omega
    · refine ⟨join c l r :: bl, List.mem_map.mpr ⟨bl, List.mem_append_left _ hbl, rfl⟩, ?_⟩
      rw [List.length_cons, height, hl]
      omega

/-! ## What a level adds -/

/-- **Four nodes for each level.** A stronger tree has one node less for every strength that it
cannot have at the root; only a leaf has a single one whatever its strength. -/
theorem height_add_le {k : Nat} (hk : k ≤ 3) (hcan : t.Canonical) (hb : t.Binds k) :
    t.height = 1 ∨ t.height + k ≤ 4 * t.nesting + 1 := by
  induction t generalizing k with
  | name s => exact .inl rfl
  | quoted s => exact .inl rfl
  | group t ih =>
    have hinner := ih (Nat.zero_le 3) hcan (binds_zero t)
    rw [height, nesting]
    omega
  | join c l r ihl ihr =>
    obtain ⟨hbl, hbr, hcl, hcr⟩ := canonical_join_iff.mp hcan
    have hroot : k ≤ c.strength := hb c rfl
    have hc : c.strength < 3 := strength_lt_three c
    have hl := ihl hc hcl hbl
    have hr := ihr (Nat.le_of_lt hc) hcr hbr
    rw [height, nesting]
    omega

theorem height_le (hcan : t.Canonical) : t.height ≤ 4 * t.nesting + 1 := by
  have h := height_add_le (Nat.zero_le 3) hcan (binds_zero t)
  omega

/-! ## Trees of the greatest height -/

/-- A tree with four nodes on each of `n` levels above the last one. -/
def tower : Nat → Tree
  | 0 => name "a"
  | n + 1 =>
    join .or (join .and (join .dot (group (tower n)) (name "a")) (name "a")) (name "a")

theorem nesting_tower (n : Nat) : (tower n).nesting = n := by
  induction n with
  | zero => rfl
  | succ n ih =>
    simp only [tower, nesting, ih]
    omega

theorem height_tower (n : Nat) : (tower n).height = 4 * n + 1 := by
  induction n with
  | zero => rfl
  | succ n ih =>
    simp only [tower, height, ih]
    omega

theorem canonical_tower (n : Nat) : (tower n).Canonical := by
  induction n with
  | zero => trivial
  | succ n ih => simp [tower, Canonical, root?, Connective.strength, ih]

theorem valid_of_mem_tokens_tower (n : Nat) : ∀ tok ∈ (tower n).tokens, tok.Valid := by
  have hname : (Token.name "a").Valid := by
    refine ⟨by simp, fun x hx ↦ ?_, by simp⟩
    obtain rfl : x = 'a' := by simpa using hx
    decide
  have hop : ∀ op, (Token.operator op).Valid := fun _ ↦ trivial
  induction n with
  | zero => simpa [tower, tokens] using hname
  | succ n ih => simpa [tower, tokens, or_imp, forall_and, hname, hop] using ih

/-- **The bound is reached.** There is an expression of nesting `n` and height `4 * n + 1` for each
`n` that the reader admits. -/
theorem read_tower {n : Nat} (hn : n ≤ maxLevels) (offset : Nat) :
    read (Token.spaced (tower n).tokens) offset = .ok (tower n) := by
  refine read_spaced (canonical_tower n) ?_ (valid_of_mem_tokens_tower n) offset
  rwa [nesting_tower]

/-! ## Whole texts -/

/-- **However long a text is, its tree is not high.** On the way from the root to any leaf there are
at most four nodes for each level that the reader admits below the first, and one more. -/
theorem length_branch_le_of_read {text : List Char} {offset : Nat} (h : read text offset = .ok t) :
    ∀ b ∈ t.branches, b.length ≤ 4 * maxLevels + 1 := by
  intro b hb
  obtain ⟨ls, -, hphrase, hn⟩ := exists_phrase_of_read h
  calc b.length ≤ t.height := length_le_height hb
    _ ≤ 4 * t.nesting + 1 := height_le hphrase.canonical
    _ ≤ 4 * maxLevels + 1 := by omega

/-- A tree that has a branch of just this length. -/
theorem length_branch_le_of_read_tower : ∃ b,
    read (Token.spaced (tower maxLevels).tokens) 0 = .ok (tower maxLevels) ∧
      b ∈ (tower maxLevels).branches ∧ b.length = 4 * maxLevels + 1 ∧
        b.length ≤ 4 * maxLevels + 1 := by
  have h := read_tower (Nat.le_refl maxLevels) 0
  obtain ⟨b, hb, hlen⟩ := exists_length_eq_height (tower maxLevels)
  rw [height_tower] at hlen
  exact ⟨b, h, hb, hlen, length_branch_le_of_read h b hb⟩

end Tree

end Interpolation
