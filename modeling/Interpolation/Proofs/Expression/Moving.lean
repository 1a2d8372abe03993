import Interpolation.Expression.Basic
import Interpolation.Proofs.Expression.Grammar

/-!
# Moving a text

Positions count bytes of the surrounding text, so they depend on where an expression stands in it.
Nothing else does: the scan of a text looks at the characters from the cursor on and the reader at
the tokens, and both touch positions only to put them into lexemes and errors. If the text is moved
by some bytes, all of these move with it and the tree stays what it is.

Each function of the scan and of the reader commutes with moving. For the reader this is shown level
by level: `Follows` relates the readers of the next deeper level, which are arguments of a level.
-/

namespace Interpolation

/-! ## What is moved -/

namespace SyntaxError

/-- The error if the text stood `k` bytes further on. -/
def moved (k : Nat) : SyntaxError → SyntaxError
  | unexpectedToken token position => unexpectedToken token (position + k)
  | expressionExpected position => expressionExpected (position + k)
  | invalidSpan start stop => invalidSpan (start + k) (stop + k)

end SyntaxError

namespace Cursor

/-- The cursor if the text stood `k` bytes further on. -/
def moved (k : Nat) (c : Cursor) : Cursor := { c with offset := c.offset + k }

variable {k : Nat}

theorem moved_start (k : Nat) (text : List Char) (offset : Nat) :
    (start text offset).moved k = start text (offset + k) := rfl

theorem absolute_moved (k : Nat) (c : Cursor) : (c.moved k).absolute = c.absolute + k := by
  simp only [absolute, moved]
  omega

theorem unexpected_moved (k : Nat) (c : Cursor) (token : List Char) :
    (c.moved k).unexpected token = (c.unexpected token).moved k := by
  rw [unexpected, absolute_moved]
  rfl

theorem unexpectedHere_moved (k : Nat) (c : Cursor) :
    (c.moved k).unexpectedHere = c.unexpectedHere.moved k := c.unexpected_moved k _

theorem past_moved (k : Nat) (c : Cursor) (taken rest : List Char) :
    (c.moved k).past taken rest = (c.past taken rest).moved k := rfl

theorem skipBlanks_moved (k : Nat) (c : Cursor) :
    (c.moved k).skipBlanks = c.skipBlanks.moved k := rfl

end Cursor

/-- The lexeme if the text stood `k` bytes further on. -/
def Lexeme.moved (k : Nat) (l : Lexeme) : Lexeme := ⟨l.start.moved k, l.token⟩

/-- The end of a scan if the text stood `k` bytes further on. -/
def Ending.moved (k : Nat) : Ending → Ending
  | finished => finished
  | failed start error => failed (start.moved k) (error.moved k)

/-! ## The scan -/

/-- The answer of a scanning step if the text stood `k` bytes further on. -/
def Scanned.moved (k : Nat) : Scanned → Scanned
  | (.error e, c) => (.error (e.moved k), c.moved k)
  | (.ok l, c) => (.ok (l.map (Lexeme.moved k)), c.moved k)

namespace Cursor

theorem name_moved (k : Nat) (c : Cursor) : (c.moved k).name = c.name.moved k := by
  have hrest : (c.moved k).rest = c.rest := rfl
  rw [name, name, hrest]
  split
  · rfl
  · simp only [past_moved, unexpected_moved]
    rfl
  · rfl

theorem quoted_moved (k : Nat) (c : Cursor) : (c.moved k).quoted = c.quoted.moved k := by
  have hrest : (c.moved k).rest = c.rest := rfl
  rw [quoted, quoted, hrest]
  split
  · split
    · rfl
    · rw [unexpected_moved]
      rfl
  · rfl

theorem operator_moved (k : Nat) (c : Cursor) : (c.moved k).operator = c.operator.moved k := by
  have hrest : (c.moved k).rest = c.rest := rfl
  rw [operator, operator, hrest, unexpectedHere_moved]
  split
  · rfl
  · rfl

theorem next_moved (k : Nat) (c : Cursor) : (c.moved k).next = c.next.moved k := by
  rw [next, next]
  simp only [skipBlanks_moved, quoted_moved, name_moved, operator_moved]
  have hend : (c.skipBlanks.moved k).atEnd = c.skipBlanks.atEnd := rfl
  rw [hend]
  by_cases hatEnd : c.skipBlanks.atEnd
  · rw [if_pos hatEnd, if_pos hatEnd]
    rfl
  rw [if_neg hatEnd, if_neg hatEnd]
  rcases c.skipBlanks.quoted with ⟨_ | _ | l, d⟩
  · rfl
  · rcases c.skipBlanks.name with ⟨_ | _ | l, d⟩
    · rfl
    · rfl
    · rfl
  · rfl

/-- **The scan moves with the text.** -/
theorem lexemes_moved (k : Nat) (c : Cursor) :
    (c.moved k).lexemes = (c.lexemes.1.map (Lexeme.moved k), c.lexemes.2.moved k) := by
  fun_induction lexemes c with
  | case1 c l d hn ls last hd ih =>
    rw [hd] at ih
    have hnext : (c.moved k).next = (.ok (some (l.moved k)), d.moved k) := by
      rw [next_moved, hn]
      rfl
    rw [lexemes_of_next_some hnext, ih]
    rfl
  | case2 c hn =>
    have hnext : ∀ l d, (c.moved k).next ≠ (.ok (some l), d) := by
      intro l d h
      rw [next_moved] at h
      rcases hc : c.next with ⟨_ | _ | l', d'⟩
      · rw [hc] at h
        cases h
      · rw [hc] at h
        cases h
      · exact hn l' d' hc
    rw [lexemes_of_next_ne_some hnext]
    rfl

theorem ending_moved (k : Nat) (c : Cursor) : (c.moved k).ending = c.ending.moved k := by
  rw [ending, ending, next_moved, skipBlanks_moved]
  rcases c.next with ⟨_ | l, d⟩
  · rfl
  · rfl

end Cursor

/-! ## The reader -/

namespace Tree

variable {α β : Type} {k : Nat} {ending : Ending} {deeper deeper' : Option Reader}

/-- The answer of a reader if the text stood `k` bytes further on. -/
def movedAnswer (k : Nat) : Except SyntaxError (α × List Lexeme) →
    Except SyntaxError (α × List Lexeme)
  | .error e => .error (e.moved k)
  | .ok (a, ls) => .ok (a, ls.map (Lexeme.moved k))

/-- `deeper'` reads a moved text as `deeper` reads the text. -/
inductive Follows (k : Nat) : Option Reader → Option Reader → Prop where
  | none : Follows k none none
  | some {read read' : Reader}
      (h : ∀ c ls, read' c (ls.map (Lexeme.moved k)) = movedAnswer k (read c ls)) :
      Follows k (some read) (some read')

theorem readOperand_moved (h : Follows k deeper deeper') (least : Connective) (ls : List Lexeme) :
    readOperand (ending.moved k) deeper' least (ls.map (Lexeme.moved k)) =
      movedAnswer k (readOperand ending deeper least ls) := by
  rcases ls with _ | ⟨⟨start, token⟩, rest⟩
  · rcases ending with _ | ⟨start, e⟩
    · rfl
    · rfl
  simp only [List.map_cons, Lexeme.moved, readOperand, Cursor.unexpected_moved,
    Cursor.unexpectedHere_moved]
  rcases token with s | s | c | _ | _
  · rfl
  · rfl
  · simp only
    split
    · rfl
    · rfl
  · rcases h with _ | @⟨read, read', h⟩
    · rfl
    · simp only [h]
      rcases read .or rest with e | ⟨_ | t, _ | ⟨⟨close, token⟩, after⟩⟩
      · rfl
      · rfl
      · rfl
      · rfl
      -- Whether the parenthesis is closed is decided by the token alone.
      · rcases token with s | s | c | _ | _
        · rfl
        · rfl
        · rfl
        · rfl
        · rfl
  · rfl

theorem readJoin_moved (h : Follows k deeper deeper') (c : Connective) (left : Tree)
    (ls : List Lexeme) :
    readJoin deeper' c left (ls.map (Lexeme.moved k)) =
      movedAnswer k (readJoin deeper c left ls) := by
  rcases ls with _ | ⟨l, rest⟩
  · rfl
  have htoken : (l.moved k).token = l.token := rfl
  rw [List.map_cons, readJoin, readJoin, htoken]
  split
  · rcases h with _ | @⟨read, read', h⟩
    · simp only [Lexeme.moved, Cursor.unexpected_moved]
      rfl
    · simp only [h, Lexeme.moved, Cursor.unexpected_moved]
      rcases read c rest with e | ⟨_ | right, after⟩
      · rfl
      · rfl
      · rfl
  · rfl

theorem certain_moved (answer : Except SyntaxError (Tree × List Lexeme)) :
    certain (movedAnswer k answer) = movedAnswer k (certain answer) := by
  rcases answer with e | ⟨t, rest⟩
  · rfl
  · rfl

theorem thenJoin_moved (h : Follows k deeper deeper') (c : Connective) (lower : Reading) :
    thenJoin deeper' c (movedAnswer k lower) = movedAnswer k (thenJoin deeper c lower) := by
  rcases lower with e | ⟨_ | t, rest⟩
  · rfl
  · rfl
  · rw [thenJoin, ← certain_moved, ← readJoin_moved h]
    rfl

theorem joinStages_moved (h : Follows k deeper deeper') (c : Connective) (operand : Reading) :
    joinStages deeper' c (movedAnswer k operand) =
      movedAnswer k (joinStages deeper c operand) := by
  rcases c with _ | _ | _
  · rw [joinStages, joinStages, thenJoin_moved h, thenJoin_moved h, thenJoin_moved h]
  · rw [joinStages, joinStages, thenJoin_moved h, thenJoin_moved h]
  · rw [joinStages, joinStages, thenJoin_moved h]

theorem refuseParen_moved (k : Nat) (t : Tree) (ls : List Lexeme) :
    refuseParen t (ls.map (Lexeme.moved k)) = movedAnswer k (refuseParen t ls) := by
  rcases ls with _ | ⟨⟨start, token⟩, rest⟩
  · rfl
  · rcases token with s | s | c | _ | _
    · rfl
    · rfl
    · rfl
    · simp only [List.map_cons, Lexeme.moved, refuseParen, Cursor.unexpected_moved]
      rfl
    · rfl

theorem endLevel_moved (k : Nat) (answer : Reading) :
    endLevel (movedAnswer k answer) = movedAnswer k (endLevel answer) := by
  rcases answer with e | ⟨_ | t, rest⟩
  · rfl
  · rfl
  · rw [endLevel, ← certain_moved, ← refuseParen_moved]
    rfl

theorem readLevel_moved (h : Follows k deeper deeper') (least : Connective) (ls : List Lexeme) :
    readLevel (ending.moved k) deeper' least (ls.map (Lexeme.moved k)) =
      movedAnswer k (readLevel ending deeper least ls) := by
  rw [readLevel_eq_endLevel, readLevel_eq_endLevel, readOperand_moved h, joinStages_moved h,
    endLevel_moved]

/-- **The reader moves with the text.** -/
theorem readLevels_moved (n : Nat) (least : Connective) (ls : List Lexeme) :
    readLevels (ending.moved k) n least (ls.map (Lexeme.moved k)) =
      movedAnswer k (readLevels ending n least ls) := by
  induction n generalizing least ls with
  | zero => exact readLevel_moved .none least ls
  | succ n ih => exact readLevel_moved (.some ih) least ls

/-- **A tree does not depend on where its text stands**, and an error moves with the text. -/
theorem read_add (text : List Char) (offset k : Nat) :
    read text (offset + k) = (read text offset).mapError (SyntaxError.moved k) := by
  rw [read, read, ← Cursor.moved_start, Cursor.lexemes_moved]
  simp only [Cursor.ending_moved, readLevels_moved]
  rcases (Cursor.start text offset).lexemes with ⟨ls, last⟩
  simp only
  rcases readLevels last.ending maxLevels .or ls with e | ⟨_ | t, _ | ⟨l, rest⟩⟩
  · rfl
  · rfl
  · rfl
  -- The tree is read to the end of the lexemes, but the scan may have failed there.
  · simp only [movedAnswer, List.map_nil]
    rcases last.ending with _ | ⟨start, e⟩
    · rfl
    · simp only [Ending.moved, Cursor.unexpectedHere_moved]
      rfl
  · simp only [movedAnswer, List.map_cons, Lexeme.moved, Cursor.unexpectedHere_moved]
    rfl

end Tree

/-- An expression keeps its text, which does not depend on the place either. -/
theorem Expression.ofText_add (text : List Char) (offset k : Nat) :
    ofText text (offset + k) = (ofText text offset).mapError (SyntaxError.moved k) := by
  rw [ofText, ofText, Tree.read_add]
  rcases Tree.read text offset with e | t
  · rfl
  · rfl

end Interpolation
