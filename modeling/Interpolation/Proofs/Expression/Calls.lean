import Mathlib
import Interpolation.Proofs.Expression.Agreement

/-!
# Calling the scanner in any order

The scanner can be called in any order, also after a call that failed, and the cursor can be saved
and set back to what was saved. Only one call can do harm: `advance` moves on by the length of an
operator, whatever is there. It is allowed if a call has just seen this operator at the cursor.

The invariant is that the cursor and everything that was saved stand in the text, and that an
operator that was seen is still there. From such a cursor the scan by characters and the scan by
bytes give the same reply and leave the same cursor, so that no part of the text is ever asked for
that does not exist.
-/

namespace Interpolation

open Text

/-! ## Single calls -/

/-- A call of the scanner. -/
inductive Call where
  | skipBlanks
  /-- Looks for an operator at the cursor. -/
  | peek
  | advance (op : Operator)
  | name
  | quoted
  | next
  /-- Makes the error that blames the character under the cursor. -/
  | blame

/-- What a call replies. -/
inductive Reply where
  /-- Whether there is more of the text. -/
  | more (b : Bool)
  | seen (op : Option Operator)
  | scanned (answer : Except SyntaxError (Option (Token × Nat)))
  | blamed (e : SyntaxError)

/-- A call at the cursor. -/
def Cursor.call (c : Cursor) : Call → Reply × Cursor
  | .skipBlanks => (.more (!c.skipBlanks.atEnd), c.skipBlanks)
  | .peek => (.seen c.operator?, c)
  | .advance op => (.scanned (.ok (some (.operator op, c.absolute))), c.advance op)
  | .name => (.scanned (found c.name.1), c.name.2)
  | .quoted => (.scanned (found c.quoted.1), c.quoted.2)
  | .next => (.scanned (found c.next.1), c.next.2)
  | .blame => (.blamed c.unexpectedHere, c)

/-- A call at a cursor that counts bytes. -/
def ByteCursor.call? (b : ByteCursor) : Call → Option (Reply × ByteCursor)
  | .skipBlanks => some (.more (!b.skipBlanks.atEnd), b.skipBlanks)
  | .peek => b.operator?.map fun op ↦ (.seen op, b)
  | .advance op => some (.scanned (.ok (some (.operator op, b.offset + b.position))), b.advance op)
  | .name => b.name.map fun a ↦ (.scanned a.1, a.2)
  | .quoted => b.quoted.map fun a ↦ (.scanned a.1, a.2)
  | .next => b.next.map fun a ↦ (.scanned a.1, a.2)
  | .blame => b.unexpectedHere?.map fun e ↦ (.blamed e, b)

namespace Cursor.StandsIn

variable {text : List Char} {c : Cursor}

/-- **One call.** -/
theorem call?_inBytes (h : c.StandsIn text) (k : Call) :
    (c.inBytes text).call? k = some ((c.call k).1, (c.call k).2.inBytes text) := by
  cases k with
  | skipBlanks =>
    have hskip : c.skipBlanks.StandsIn text := h.precedes (precedes_skipBlanks c)
    rw [ByteCursor.call?, h.skipBlanks_inBytes, hskip.atEnd_inBytes, call]
  | peek => rw [ByteCursor.call?, h.operator?_inBytes, Option.map_some, call]
  | advance op => rfl
  | name => rw [ByteCursor.call?, h.name_inBytes, Option.map_some, call, answerInBytes]
  | quoted => rw [ByteCursor.call?, h.quoted_inBytes, Option.map_some, call, answerInBytes]
  | next => rw [ByteCursor.call?, h.next_inBytes, Option.map_some, call, answerInBytes]
  | blame => rw [ByteCursor.call?, h.unexpectedHere?_inBytes, Option.map_some, call]

/-- No call moves the cursor backward. -/
theorem precedes_call (h : c.StandsIn text) {k : Call}
    (hk : ∀ op, k = .advance op → c.operator? = some op) : c.Precedes (c.call k).2 := by
  cases k with
  | skipBlanks => exact precedes_skipBlanks c
  | peek => exact .refl c
  | advance op => exact (h.takes_advance (hk op rfl)).precedes
  | name => exact precedes_name c
  | quoted => exact precedes_quoted c
  | next => exact precedes_next c
  | blame => exact .refl c

end Cursor.StandsIn

/-! ## Scanners in use -/

/-- What can be done with a scanner. -/
inductive Action where
  | call (k : Call)
  | save
  /-- Sets the cursor back to one that was saved. -/
  | restore (i : Nat)

/-- A scanner in use, with the cursors that were saved, the last one first. -/
structure Scanner where
  cursor : Cursor
  saved : List Cursor
  /-- The operator that was just seen at the cursor. -/
  seen : Option Operator

namespace Scanner

def start (text : List Char) (offset : Nat) : Scanner := ⟨.start text offset, [], none⟩

/-- An operator is passed only if it was just seen, and the cursor is only set back to one that
there is. -/
def Allows (s : Scanner) : Action → Prop
  | .call (.advance op) => s.seen = some op
  | .call _ => True
  | .save => True
  | .restore i => i < s.saved.length

/-- The scanner after an action. What was seen counts until the cursor may have moved. -/
def after (s : Scanner) : Action → Scanner
  | .call .peek => { s with seen := s.cursor.operator? }
  | .call .blame => s
  | .call k => { s with cursor := (s.cursor.call k).2, seen := none }
  | .save => { s with saved := s.cursor :: s.saved }
  | .restore i => { s with cursor := s.saved.getD i s.cursor, seen := none }

/-- What any sequence of allowed actions leads to. -/
inductive Reached (text : List Char) (offset : Nat) : Scanner → Prop where
  | start : Reached text offset (start text offset)
  | step {s : Scanner} {a : Action} (h : Reached text offset s) (ha : s.Allows a) :
      Reached text offset (s.after a)

/-- The invariant of a scanner. -/
structure Sound (text : List Char) (s : Scanner) : Prop where
  standsIn : s.cursor.StandsIn text
  saved : ∀ c ∈ s.saved, c.StandsIn text
  seen : ∀ op, s.seen = some op → s.cursor.operator? = some op

variable {text : List Char} {offset : Nat} {s : Scanner} {a : Action} {k : Call}

theorem sound_start (text : List Char) (offset : Nat) : (start text offset).Sound text :=
  ⟨Cursor.standsIn_start text offset, fun _ hc ↦ absurd hc List.not_mem_nil,
    fun _ h ↦ nomatch h⟩

/-- A call leaves the cursor that it leaves by itself. -/
theorem cursor_after_call (s : Scanner) (k : Call) :
    (s.after (.call k)).cursor = (s.cursor.call k).2 := by
  cases k <;> rfl

theorem saved_after_call (s : Scanner) (k : Call) : (s.after (.call k)).saved = s.saved := by
  cases k <;> rfl

theorem Sound.precedes_call (h : s.Sound text) (ha : s.Allows (.call k)) :
    s.cursor.Precedes (s.after (.call k)).cursor := by
  rw [cursor_after_call]
  refine h.standsIn.precedes_call ?_
  rintro op rfl
  exact h.seen op ha

/-- **One action.** -/
theorem Sound.after (h : s.Sound text) (ha : s.Allows a) : (s.after a).Sound text := by
  cases a with
  | call k =>
    refine ⟨h.standsIn.precedes (h.precedes_call ha), ?_, ?_⟩
    · rw [saved_after_call]
      exact h.saved
    · intro op hop
      cases k with
      | peek => exact hop
      | blame => exact h.seen op hop
      | _ => cases hop
  | save => exact ⟨h.standsIn, List.forall_mem_cons.mpr ⟨h.standsIn, h.saved⟩, h.seen⟩
  | restore i =>
    have hmem : s.saved.getD i s.cursor ∈ s.saved := by
      rw [List.getD_eq_getElem _ _ ha]
      exact List.getElem_mem ha
    exact ⟨h.saved _ hmem, h.saved, fun _ hop ↦ nomatch hop⟩

/-- **Any sequence of actions.** -/
theorem Reached.sound (h : Reached text offset s) : s.Sound text := by
  induction h with
  | start => exact sound_start text offset
  | step _ ha ih => exact ih.after ha

theorem Sound.position_le (h : s.Sound text) (ha : s.Allows a) (hback : ∀ i, a ≠ .restore i) :
    s.cursor.position ≤ (s.after a).cursor.position := by
  cases a with
  | call k => exact (h.precedes_call ha).position_le
  | save => exact Nat.le_refl _
  | restore i => exact absurd rfl (hback i)

end Scanner

/-- **Nothing is taken from outside the text or from inside a character.** After each action that is
allowed, the cursor is at most at the end of the text and between two characters, and only a
restored one can be further to the front. Each call that counts bytes has an answer, which is that
of the call that counts characters, and so has the reader of expressions. -/
theorem scanning_stays_in_text (text : List Char) (offset : Nat) :
    (∀ s, Scanner.Reached text offset s → ∀ a, s.Allows a →
      (s.after a).cursor.position ≤ byteLength text ∧
        dropBytes? (s.after a).cursor.position text = some (s.after a).cursor.rest ∧
        ((∀ i, a ≠ .restore i) → s.cursor.position ≤ (s.after a).cursor.position) ∧
        ∀ k, a = .call k → (s.cursor.inBytes text).call? k =
          some ((s.cursor.call k).1, (s.after a).cursor.inBytes text)) ∧
      Parser.parse text offset = some (Tree.read text offset) := by
  refine ⟨fun s hs a ha ↦ ?_, parse_eq_read text offset⟩
  have hsound : s.Sound text := hs.sound
  have hafter : (s.after a).cursor.StandsIn text := (hsound.after ha).standsIn
  refine ⟨hafter.position_le, hafter.dropBytes?_position, hsound.position_le ha, ?_⟩
  rintro k rfl
  rw [Scanner.cursor_after_call]
  exact hsound.standsIn.call?_inBytes k

/-- What was not seen cannot be passed: this would end inside a character. -/
example : dropBytes? ((Cursor.start ['é'] 0).advance (.connective .dot)).position ['é'] = none := by
  decide

end Interpolation
