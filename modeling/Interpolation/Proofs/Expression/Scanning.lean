import Interpolation.Expression.Lexeme

/-!
# Scanning a text to its end

Asking for the next token again and again either ends where only blanks are left, or fails. `Scans`
describes the runs of the first kind by their steps; the function `Cursor.lexemes`, which does all
of them at once, is tied to it by `scans_iff`.
-/

namespace Interpolation

namespace Cursor

/-- The lexemes that come one after another from a cursor on, until there is none left. -/
inductive Scans : Cursor → List Lexeme → Prop where
  | finished {c d : Cursor} (h : c.next = (.ok none, d)) : Scans c []
  | token {c d : Cursor} {l : Lexeme} {ls : List Lexeme} (h : c.next = (.ok (some l), d))
      (hs : Scans d ls) : Scans c (l :: ls)

/-! ## The equations of a whole scan -/

theorem lexemes_of_next_some {c d : Cursor} {l : Lexeme} (h : c.next = (.ok (some l), d)) :
    c.lexemes = (l :: d.lexemes.1, d.lexemes.2) := by
  rw [lexemes]
  split
  · rename_i l' d' h'
    rw [h] at h'
    cases h'
    rfl
  · rename_i hn
    exact absurd h (hn l d)

theorem lexemes_of_next_ne_some {c : Cursor} (h : ∀ l d, c.next ≠ (.ok (some l), d)) :
    c.lexemes = ([], c) := by
  rw [lexemes]
  split
  · rename_i l d h'
    exact absurd h' (h l d)
  · rfl

theorem ending_eq_finished_iff {c : Cursor} :
    c.ending = .finished ↔ ∃ a d, c.next = (.ok a, d) := by
  rw [ending]
  rcases h : c.next with ⟨_ | a, d⟩ <;> simp

/-! ## The steps and the whole scan -/

theorem Scans.lexemes_eq {c : Cursor} {ls : List Lexeme} (h : c.Scans ls) :
    c.lexemes.1 = ls ∧ c.lexemes.2.ending = .finished := by
  induction h with
  | @finished c d h =>
    rw [lexemes_of_next_ne_some (by simp [h])]
    exact ⟨rfl, ending_eq_finished_iff.mpr ⟨none, d, h⟩⟩
  | token h _ ih =>
    rw [lexemes_of_next_some h]
    exact ⟨by rw [ih.1], ih.2⟩

theorem scans_lexemes {c : Cursor} (h : c.lexemes.2.ending = .finished) : c.Scans c.lexemes.1 := by
  fun_induction lexemes c with
  | case1 c l d hn ls last heq ih =>
    rw [heq] at ih
    exact .token hn (ih h)
  | case2 c hn =>
    obtain ⟨_ | l, d, ha⟩ := ending_eq_finished_iff.mp h
    · exact .finished ha
    · exact absurd ha (hn l d)

/-- **A scan that does not fail.** Its lexemes are those of the function, which then reports that
only blanks follow. -/
theorem scans_iff {c : Cursor} {ls : List Lexeme} :
    c.Scans ls ↔ c.lexemes.1 = ls ∧ c.lexemes.2.ending = .finished := by
  constructor
  · exact Scans.lexemes_eq
  · rintro ⟨rfl, h⟩
    exact scans_lexemes h

end Cursor

end Interpolation
