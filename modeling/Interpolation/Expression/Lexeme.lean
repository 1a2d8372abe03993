import Interpolation.Expression.Cursor

/-!
# The lexemes of a text

A text is scanned once from its start: its lexemes in order, and why there are no more of them. Each
token takes at least one character, so the scan comes to an end.
-/

namespace Interpolation

/-- How the lexemes of a text end. -/
inductive Ending where
  /-- Only blanks follow. -/
  | finished
  /-- At `start`, after blanks, no token could be scanned. -/
  | failed (start : Cursor) (error : SyntaxError)
  deriving DecidableEq, Repr

namespace Cursor

theorem length_dropWhile_le {α : Type _} (p : α → Bool) (xs : List α) :
    (xs.dropWhile p).length ≤ xs.length := by
  have := congrArg List.length (List.takeWhile_append_dropWhile (p := p) (l := xs))
  simp only [List.length_append] at this
  omega

theorem length_closeQuote? {cs s r : List Char} (h : closeQuote? cs = some (s, r)) :
    r.length < cs.length := by
  fun_induction closeQuote? cs generalizing s with
  | case1 => simp at h
  | case2 rest ih =>
    obtain ⟨⟨s', r'⟩, h', he⟩ := Option.map_eq_some_iff.1 h
    simp only [Prod.mk.injEq] at he
    have := ih (he.2 ▸ h')
    simp only [List.length_cons]
    omega
  | case3 rest _ => simp_all
  | case4 c rest _ hc ih =>
    obtain ⟨⟨s', r'⟩, h', he⟩ := Option.map_eq_some_iff.1 h
    simp only [Prod.mk.injEq] at he
    have := ih (he.2 ▸ h')
    simp only [List.length_cons]
    omega

theorem length_quoted {c d : Cursor} {l : Lexeme} (h : c.quoted = (.ok (some l), d)) :
    d.rest.length < c.rest.length := by
  unfold quoted at h
  split at h
  · rename_i inside hc
    split at h
    · rename_i value after hv
      simp only [Prod.mk.injEq, Except.ok.injEq, Option.some.injEq] at h
      have := length_closeQuote? hv
      rw [← h.2, hc]
      simp only [past, List.length_cons]
      omega
    · simp at h
  · simp at h

theorem length_name {c d : Cursor} {l : Lexeme} (h : c.name = (.ok (some l), d)) :
    d.rest.length < c.rest.length := by
  have hlen := congrArg List.length
    (List.takeWhile_append_dropWhile (p := isNameChar) (l := c.rest))
  simp only [List.length_append] at hlen
  unfold name at h
  simp only at h
  split at h
  · simp at h
  · simp at h
  · rename_i x _ hx
    have hne : 0 < (c.rest.takeWhile isNameChar).length := by
      rcases hr : c.rest.takeWhile isNameChar with _ | ⟨y, ys⟩
      · simp [hr] at hx
      · simp
    simp only [Prod.mk.injEq, Except.ok.injEq, Option.some.injEq] at h
    rw [← h.2]
    simp only [past]
    omega

theorem length_operator {c d : Cursor} {l : Lexeme} (h : c.operator = (.ok (some l), d)) :
    d.rest.length < c.rest.length := by
  unfold operator at h
  split at h
  · rename_i op after ho
    simp only [Prod.mk.injEq, Except.ok.injEq, Option.some.injEq] at h
    rw [← h.2, Operator.ofText?_eq_some_iff.1 ho]
    have : 0 < op.symbol.toList.length := by rcases op with (_ | _ | _) | _ | _ <;> decide
    simp only [past, List.length_append]
    omega
  · simp at h

theorem length_skipBlanks_le (c : Cursor) : c.skipBlanks.rest.length ≤ c.rest.length :=
  length_dropWhile_le _ _

/-- A token takes at least one character. -/
theorem length_next {c d : Cursor} {l : Lexeme} (h : c.next = (.ok (some l), d)) :
    d.rest.length < c.rest.length := by
  refine Nat.lt_of_lt_of_le ?_ c.length_skipBlanks_le
  unfold next at h
  simp only at h
  split at h
  · simp at h
  · split at h
    · split at h
      · exact length_operator h
      · exact length_name h
    · exact length_quoted h

/-- All lexemes from the cursor on, and the cursor behind the last of them, from which there is no
next token. -/
def lexemes (c : Cursor) : List Lexeme × Cursor :=
  match _h : c.next with
  | (.ok (some l), d) =>
    let (ls, last) := lexemes d
    (l :: ls, last)
  | _ => ([], c)
termination_by c.rest.length
decreasing_by exact length_next _h

/-- Why there is no next token. -/
def ending (c : Cursor) : Ending :=
  match c.next with
  | (.error e, _) => .failed c.skipBlanks e
  | _ => .finished

end Cursor

end Interpolation
