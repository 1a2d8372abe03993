import Interpolation.Proofs.Document.Addressing
import Interpolation.Proofs.Expression.Tokenization

/-!
# Pairs of quotes

A text is quoted by writing each of its quotes twice between two quotes. Scanning is described here
as two passes: first the closing quote is looked for, passing quotes in pairs, then each pair before
it is replaced by one quote. The two passes agree on what a pair is, however many quotes stand in a
row, since both take pairs from the left.
-/

namespace Interpolation

open Text

/-! ## Writing and replacing pairs -/

theorem doubleQuotes_eq_replaceChar (s : List Char) :
    doubleQuotes s = replaceChar '\'' ['\'', '\''] s := by
  induction s with
  | nil => rfl
  | cons c s ih =>
    rw [doubleQuotes, ih]
    by_cases hc : c = '\''
    · rw [if_pos hc, hc, replaceChar_self]
      rfl
    · rw [if_neg hc, replaceChar_of_ne hc]

/-- Replacing the pairs undoes the writing: no pair is made of quotes from two pairs. -/
theorem replacePair_doubleQuotes (s : List Char) :
    replacePair '\'' '\'' '\'' (doubleQuotes s) = s := by
  induction s with
  | nil => rfl
  | cons c s ih =>
    rw [doubleQuotes]
    by_cases hc : c = '\''
    · rw [if_pos hc, replacePair_pair, ih, hc]
    · rw [if_neg hc, replacePair_cons (fun h ↦ absurd h hc), ih]

namespace Cursor

variable {c d : Cursor} {l : Lexeme}

/-- **Two passes.** The closing quote is found, then the pairs before it are replaced. -/
theorem quoted_eq_some_iff_closes : c.quoted = (.ok (some l), d) ↔
    ∃ cs inside, c.rest = '\'' :: cs ∧ Closes cs inside d.rest ∧
      l = ⟨c, .quoted (String.ofList (replacePair '\'' '\'' '\'' inside))⟩ ∧
      c.past ('\'' :: (inside ++ ['\''])) d.rest = d := by
  rw [quoted_eq_some_iff]
  constructor
  · rintro ⟨s, rfl, -, hrest, hends, hpast⟩
    refine ⟨_, doubleQuotes s.toList, ?_, ⟨rfl, paired_doubleQuotes _, hends⟩, ?_, hpast⟩
    · rw [hrest, Token.text, quote, List.cons_append, List.append_assoc]
      rfl
    · rw [replacePair_doubleQuotes, String.ofList_toList]
  · rintro ⟨cs, inside, hrest, hcloses, rfl, hpast⟩
    obtain ⟨s, rfl⟩ := exists_doubleQuotes hcloses.paired
    rw [replacePair_doubleQuotes]
    refine ⟨_, rfl, trivial, ?_, hcloses.single, ?_⟩
    · rw [hrest, hcloses.eq, Token.text, String.toList_ofList, quote, List.cons_append,
        List.append_assoc]
      rfl
    · rw [Token.text, String.toList_ofList]
      exact hpast

end Cursor

end Interpolation
