import Mathlib
import Interpolation.Proofs.Expression.Agreement

/-!
# Going forward

What is said here of cursors that count bytes holds wherever they stand, also behind the end of the
text or inside a character: a step of the scan that has an answer never moves backward. A cursor
between two characters has an answer to every step, and the step leaves it between two characters.
-/

namespace Interpolation

open Text

/-! ## The loops -/

section Loops

variable {bs : List UInt8} {i stop : Nat}

theorem le_of_nameEnd (h : nameEnd bs i = .ok stop ∨ nameEnd bs i = .error stop) : i ≤ stop := by
  fun_induction nameEnd bs i with
  | case1 i => simp_all
  | case2 b bs i hb => simp_all
  | case3 b bs i hb hhyphen => simp_all
  | case4 b bs i hb hgo ih => exact Nat.le_of_succ_le (ih h)

theorem le_of_quoteEnd (h : quoteEnd bs i = .ok stop ∨ quoteEnd bs i = .error stop) :
    i ≤ stop := by
  fun_induction quoteEnd bs i with
  | case1 i => simp_all
  | case2 b bs i hb ih => exact Nat.le_of_succ_le (ih h)
  | case3 b i hb => simp at h; omega
  | case4 b i hb b' bs' hb' ih => exact Nat.le_trans (Nat.le_add_right i 2) (ih h)
  | case5 b i hb b' bs' hb' => simp at h; omega

end Loops

namespace ByteCursor

variable {b d : ByteCursor} {stop : Nat} {op : Operator}
  {answer : Except SyntaxError (Option (Token × Nat))}

/-! ## Moving on -/

/-- The cursor `d` is `b`, some bytes further on. -/
def Precedes (b d : ByteCursor) : Prop := ∃ bytes, b.moveTo (b.position + bytes) = d

theorem Precedes.refl (b : ByteCursor) : b.Precedes b := ⟨0, rfl⟩

theorem Precedes.trans {e : ByteCursor} (h : b.Precedes d) (h' : d.Precedes e) : b.Precedes e := by
  obtain ⟨m, rfl⟩ := h
  obtain ⟨n, rfl⟩ := h'
  exact ⟨m + n, by simp only [moveTo, Nat.add_assoc]⟩

theorem Precedes.text_eq (h : b.Precedes d) : d.text = b.text := by
  obtain ⟨bytes, rfl⟩ := h
  rfl

theorem Precedes.position_le (h : b.Precedes d) : b.position ≤ d.position := by
  obtain ⟨bytes, rfl⟩ := h
  exact Nat.le_add_right _ _

theorem precedes_moveTo (h : b.position ≤ stop) : b.Precedes (b.moveTo stop) :=
  ⟨stop - b.position, by rw [Nat.add_sub_cancel' h]⟩

theorem precedes_skipBlanks (b : ByteCursor) : b.Precedes b.skipBlanks := ⟨_, rfl⟩

theorem precedes_advance (b : ByteCursor) (op : Operator) : b.Precedes (b.advance op) := ⟨_, rfl⟩

theorem precedes_of_name (h : b.name = some (answer, d)) : b.Precedes d := by
  rw [name] at h
  split at h
  · rename_i stop hstop
    cases h
    exact precedes_moveTo (le_of_nameEnd (.inr hstop))
  · rename_i stop hstop
    split at h
    · cases h
      exact .refl b
    · obtain ⟨run, -, heq⟩ := Option.map_eq_some_iff.mp h
      cases heq
      exact precedes_moveTo (le_of_nameEnd (.inl hstop))

theorem precedes_of_quoted (h : b.quoted = some (answer, d)) : b.Precedes d := by
  rw [quoted] at h
  split at h
  · cases h
    exact .refl b
  split at h
  · rename_i stop hstop
    obtain ⟨rest, -, heq⟩ := Option.map_eq_some_iff.mp h
    cases heq
    exact precedes_moveTo (Nat.le_of_succ_le (le_of_quoteEnd (.inr hstop)))
  · rename_i stop hstop
    obtain ⟨inside, -, heq⟩ := Option.map_eq_some_iff.mp h
    cases heq
    exact precedes_moveTo (Nat.le_of_succ_le (le_of_quoteEnd (.inl hstop)))

theorem precedes_of_next (h : b.next = some (answer, d)) : b.Precedes d := by
  refine (precedes_skipBlanks b).trans ?_
  rw [next] at h
  split at h
  · cases h
    exact .refl _
  obtain ⟨⟨quoted, b₁⟩, hquoted, h⟩ := Option.bind_eq_some_iff.mp h
  refine (precedes_of_quoted hquoted).trans ?_
  split at h
  · rename_i heq
    cases heq
    obtain ⟨⟨name, b₂⟩, hname, h⟩ := Option.bind_eq_some_iff.mp h
    refine (precedes_of_name hname).trans ?_
    split at h
    · rename_i heq
      cases heq
      obtain ⟨seen, -, h⟩ := Option.bind_eq_some_iff.mp h
      split at h
      · cases h
        exact precedes_advance _ _
      · obtain ⟨e, -, heq⟩ := Option.map_eq_some_iff.mp h
        cases heq
        exact .refl _
    · cases h
      exact .refl _
  · cases h
    exact .refl _

theorem position_lt_advance (b : ByteCursor) (op : Operator) :
    b.position < (b.advance op).position := by
  have hne : op.symbol.toList ≠ [] := by rcases op with (_ | _ | _) | _ | _ <;> decide
  exact Nat.lt_add_of_pos_right (byteLength_pos hne)

/-! ## Between two characters -/

/-- The cursor stands in the text, where a character begins or the text ends. -/
def BetweenCharacters (b : ByteCursor) : Prop :=
  ∃ before rest, b.text = before ++ rest ∧ b.position = byteLength before

namespace BetweenCharacters

theorem of_standsIn {text : List Char} {c : Cursor} (h : c.StandsIn text) :
    (c.inBytes text).BetweenCharacters := by
  obtain ⟨before, htext, hposition⟩ := h.exists_before
  exact ⟨before, c.rest, htext, hposition⟩

/-- A cursor that counts characters stands there, too. -/
theorem exists_standsIn (h : b.BetweenCharacters) :
    ∃ c : Cursor, c.StandsIn b.text ∧ c.inBytes b.text = b := by
  obtain ⟨text, offset, position⟩ := b
  obtain ⟨before, rest, rfl, rfl⟩ := h
  refine ⟨(Cursor.start (before ++ rest) offset).past before rest, ⟨before, rfl, rfl⟩, ?_⟩
  simp [Cursor.inBytes, Cursor.past, Cursor.start]

theorem skipBlanks (h : b.BetweenCharacters) : b.skipBlanks.BetweenCharacters := by
  obtain ⟨c, hc, hb⟩ := h.exists_standsIn
  rw [← hb, hc.skipBlanks_inBytes]
  exact of_standsIn (hc.precedes (Cursor.precedes_skipBlanks c))

theorem exists_next (h : b.BetweenCharacters) :
    ∃ answer d, b.next = some (answer, d) ∧ d.BetweenCharacters := by
  obtain ⟨c, hc, hb⟩ := h.exists_standsIn
  rw [← hb, hc.next_inBytes]
  exact ⟨_, _, rfl, of_standsIn (hc.precedes (Cursor.precedes_next c))⟩

theorem exists_operator? (h : b.BetweenCharacters) : ∃ seen, b.operator? = some seen := by
  obtain ⟨c, hc, hb⟩ := h.exists_standsIn
  exact ⟨_, hb ▸ hc.operator?_inBytes⟩

/-- An operator can be looked for nowhere else. -/
theorem of_operator? {seen : Option Operator} (h : b.operator? = some seen) :
    b.BetweenCharacters := by
  obtain ⟨rest, hrest, -⟩ := Option.map_eq_some_iff.mp h
  rw [rest?, slice?] at hrest
  split at hrest
  · obtain ⟨tail, htail, -⟩ := Option.bind_eq_some_iff.mp hrest
    obtain ⟨before, htext, hposition⟩ := dropBytes?_eq_some_iff.mp htail
    exact ⟨before, tail, htext, hposition.symm⟩
  · cases hrest

theorem advance (h : b.BetweenCharacters) (hop : b.operator? = some (some op)) :
    (b.advance op).BetweenCharacters := by
  obtain ⟨c, hc, hb⟩ := h.exists_standsIn
  rw [← hb, hc.operator?_inBytes, Option.some_inj] at hop
  rw [← hb]
  exact of_standsIn (hc.precedes (hc.takes_advance hop).precedes)

theorem exists_rest? (h : b.BetweenCharacters) (htext : d.text = b.text) :
    ∃ rest, d.rest? b.position = some rest := by
  obtain ⟨c, hc, hb⟩ := h.exists_standsIn
  have hrest := hc.rest?_inBytes c
  rw [hb] at hrest
  refine ⟨c.rest, ?_⟩
  rwa [rest?, htext, ← hb]

theorem exists_unexpectedHere? (h : b.BetweenCharacters) :
    ∃ e, b.unexpectedHere? = some e := by
  obtain ⟨rest, hrest⟩ := h.exists_rest? rfl
  exact ⟨_, by rw [unexpectedHere?, hrest, Option.map_some]⟩

end BetweenCharacters

/-- Where an operator is seen, there is text left. -/
theorem position_lt_of_operator? (h : b.operator? = some (some op)) :
    b.position < byteLength b.text := by
  obtain ⟨c, hc, hb⟩ := (BetweenCharacters.of_operator? h).exists_standsIn
  rw [← hb, hc.operator?_inBytes, Option.some_inj] at h
  obtain ⟨before, htext, hposition⟩ := hc.exists_before
  rw [← hb, Cursor.text_inBytes, Cursor.position_inBytes, hposition]
  calc byteLength before < byteLength before + byteLength c.rest :=
        Nat.lt_add_of_pos_right (byteLength_pos (hc.takes_advance h).rest_ne_nil)
    _ = byteLength b.text := by rw [htext, byteLength_append]

end ByteCursor

end Interpolation
