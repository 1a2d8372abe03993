import Mathlib
import Interpolation.Proofs.Expression.Forward

/-!
# Attempts to take an operator

A parser that climbs tries one operator after another. What such an attempt can come to is said
once, for all operators together (`Attempt`): there is no text to look at, nothing is taken, or an
operator is passed and the next deeper level is read behind it. So what an attempt does follows from
what the reader of that level does. Three things are asked of it: that it never goes back and closes
the levels that it opens (`Steady`), that it agrees with another one where they may be called
(`SameBelow`), and that it has an answer there (`AnswersBelow`).
-/

namespace Interpolation

open Text

namespace Parser

variable {α β : Type} {inner inner' : Next} {p q r : Parser} {c least : Connective} {op : Operator}

/-! ## Forward, with as many levels open -/

/-- The parser `q` is further on than `p`, or at the same place, and has as many levels open. -/
structure Precedes (p q : Parser) : Prop where
  cursor : p.cursor.Precedes q.cursor
  depth_eq : q.depth = p.depth

theorem Precedes.refl (p : Parser) : p.Precedes p := ⟨.refl _, rfl⟩

theorem Precedes.trans (h : p.Precedes q) (h' : q.Precedes r) : p.Precedes r :=
  ⟨h.cursor.trans h'.cursor, h'.depth_eq.trans h.depth_eq⟩

theorem Precedes.remaining_le (h : p.Precedes q) : q.remaining ≤ p.remaining := by
  rw [remaining, remaining, h.cursor.text_eq]
  exact Nat.sub_le_sub_left h.cursor.position_le _

theorem precedes_skipBlanks (p : Parser) : p.Precedes p.skipBlanks :=
  ⟨ByteCursor.precedes_skipBlanks _, rfl⟩

theorem precedes_advance (p : Parser) (op : Operator) : p.Precedes (p.advance op) :=
  ⟨ByteCursor.precedes_advance _ _, rfl⟩

theorem deeper?_eq_some (h : p.deeper? = some q) :
    q.cursor = p.cursor ∧ q.depth = p.depth + 1 ∧ q.depth ≤ Tree.maxLevels := by
  rw [deeper?] at h
  split at h
  · rename_i hlt
    cases h
    exact ⟨rfl, rfl, hlt⟩
  · cases h

/-- The level that was opened is closed again. -/
theorem precedes_shallower (hq : p.deeper? = some q) (h : q.Precedes r) :
    p.Precedes r.shallower := by
  obtain ⟨hcursor, hdepth, -⟩ := deeper?_eq_some hq
  refine ⟨hcursor ▸ h.cursor, ?_⟩
  rw [shallower, h.depth_eq, hdepth, Nat.add_sub_cancel]

/-- The parser that an answer leaves is further on, and has as many levels open. -/
def Keeps (p : Parser) (answer : Option (Parsed α)) : Prop :=
  ∀ a q, answer = some (a, q) → p.Precedes q

/-- There is an answer, and it leaves the cursor between two characters. -/
def Answers (answer : Option (Parsed α)) : Prop :=
  ∃ a q, answer = some (a, q) ∧ q.cursor.BetweenCharacters

theorem keeps_some {a : Except SyntaxError α} (h : p.Precedes q) : p.Keeps (some (a, q)) := by
  intro a' q' heq
  cases heq
  exact h

theorem Keeps.mono {answer : Option (Parsed α)} (hpq : p.Precedes q) (h : q.Keeps answer) :
    p.Keeps answer :=
  fun a r hr ↦ hpq.trans (h a r hr)

theorem Keeps.bind {answer : Option (Parsed α)} {f : Parsed α → Option (Parsed β)}
    (h : p.Keeps answer) (hf : ∀ a (q : Parser), q.Keeps (f (a, q))) : p.Keeps (answer.bind f) := by
  intro b r hr
  obtain ⟨⟨a, q⟩, hq, hr⟩ := Option.bind_eq_some_iff.mp hr
  exact (h a q hq).trans (hf a q b r hr)

theorem Answers.between {answer : Option (Parsed α)} {a : Except SyntaxError α}
    (h : Answers answer) (hq : answer = some (a, q)) : q.cursor.BetweenCharacters := by
  obtain ⟨a', q', hq', hbetween⟩ := h
  rw [hq] at hq'
  cases hq'
  exact hbetween

theorem Answers.bind {answer : Option (Parsed α)} {f : Parsed α → Option (Parsed β)}
    (h : Answers answer)
    (hf : ∀ a q, answer = some (a, q) → q.cursor.BetweenCharacters → Answers (f (a, q))) :
    Answers (answer.bind f) := by
  obtain ⟨a, q, hq, hbetween⟩ := h
  rw [hq, Option.bind_some]
  exact hf a q hq hbetween

/-- A reader that never goes back, and closes every level that it opens. -/
def Steady (inner : Next) : Prop := ∀ (p : Parser) least whole, p.Keeps (inner p least whole)

/-! ## The next deeper level -/

/-- A state in which an expression is read on the next deeper level. -/
structure Below (p q : Parser) : Prop where
  remaining_lt : q.remaining < p.remaining
  depth_eq : q.depth = p.depth + 1
  depth_le : q.depth ≤ Tree.maxLevels

theorem Below.of_precedes (hpq : p.Precedes q) (h : q.Below r) : p.Below r :=
  ⟨Nat.lt_of_lt_of_le h.remaining_lt hpq.remaining_le, hpq.depth_eq ▸ h.depth_eq, h.depth_le⟩

theorem remaining_lt (hlt : p.cursor.position < byteLength p.cursor.text)
    (hpq : p.cursor.Precedes q.cursor) (hmoved : p.cursor.position < q.cursor.position) :
    q.remaining < p.remaining := by
  rw [remaining, remaining, hpq.text_eq]
  exact Nat.sub_lt_sub_left hlt hmoved

theorem below_of_deeper? (hop : p.cursor.operator? = some (some op))
    (hq : (p.advance op).deeper? = some q) : p.Below q := by
  obtain ⟨hcursor, hdepth, hle⟩ := deeper?_eq_some hq
  refine ⟨remaining_lt (ByteCursor.position_lt_of_operator? hop) ?_ ?_, hdepth, hle⟩
  · rw [hcursor]
    exact ByteCursor.precedes_advance _ _
  · rw [hcursor]
    exact ByteCursor.position_lt_advance _ _

/-- Two readers of the next deeper level agree on the states in which they may be called. -/
def SameBelow (p : Parser) (inner inner' : Next) : Prop :=
  ∀ q least, p.Below q → inner q least false = inner' q least false

theorem SameBelow.of_precedes (hpq : p.Precedes q) (h : p.SameBelow inner inner') :
    q.SameBelow inner inner' :=
  fun r least hr ↦ h r least (hr.of_precedes hpq)

/-- The reader of the next deeper level has answers wherever it may be called. -/
def AnswersBelow (p : Parser) (inner : Next) : Prop :=
  ∀ q least, p.Below q → q.cursor.BetweenCharacters → Answers (inner q least false)

theorem AnswersBelow.of_precedes (hpq : p.Precedes q) (h : p.AnswersBelow inner) :
    q.AnswersBelow inner :=
  fun r least hr ↦ h r least (hr.of_precedes hpq)

/-- Reads an expression on the next deeper level. If there is no such level, an error is given. -/
def nested (inner : Next) (p : Parser) (least : Connective) (refused : SyntaxError) :
    Option (Parsed (Option Tree)) :=
  match p.deeper? with
  | none => some (.error refused, p)
  | some q => (inner q least false).map fun (answer, q) ↦ (answer, q.shallower)

section Nested

variable {refused : SyntaxError}

theorem keeps_nested (hinner : Steady inner) : p.Keeps (p.nested inner least refused) := by
  rw [nested]
  split
  · exact keeps_some (.refl p)
  · rename_i q hq
    intro a r hr
    obtain ⟨⟨a', r'⟩, hr', heq⟩ := Option.map_eq_some_iff.mp hr
    cases heq
    exact precedes_shallower hq (hinner q least false a r' hr')

theorem nested_congr (hop : p.cursor.operator? = some (some op))
    (hsame : p.SameBelow inner inner') :
    (p.advance op).nested inner least refused = (p.advance op).nested inner' least refused := by
  rw [nested, nested]
  split
  · rfl
  · rename_i q hq
    rw [hsame q least (below_of_deeper? hop hq)]

theorem answers_nested (hop : p.cursor.operator? = some (some op))
    (hp : p.cursor.BetweenCharacters) (hinner : p.AnswersBelow inner) :
    Answers ((p.advance op).nested inner least refused) := by
  have hadvance : (p.advance op).cursor.BetweenCharacters := hp.advance hop
  rw [nested]
  split
  · exact ⟨_, _, rfl, hadvance⟩
  · rename_i q hq
    have hbetween : q.cursor.BetweenCharacters := (deeper?_eq_some hq).1 ▸ hadvance
    obtain ⟨a, r, hr, hrbetween⟩ := hinner q least (below_of_deeper? hop hq) hbetween
    rw [hr]
    exact ⟨_, _, rfl, hrbetween⟩

end Nested

/-! ## Attempts -/

/-- What is done behind the operator that opened a level and the content of that level. -/
structure Continues (p : Parser)
    (after : Parsed (Option Tree) → Option (Parsed (Bool × Option Tree))) : Prop where
  keeps : ∀ a (q : Parser), q.Keeps (after (a, q))
  answers : ∀ a (q : Parser), p.cursor.BetweenCharacters → p.Precedes q →
    q.cursor.BetweenCharacters → Answers (after (a, q))

/-- What an attempt to take an operator comes to, given the reader of the next deeper level. -/
inductive Attempt (p : Parser) : (Next → Option (Parsed (Bool × Option Tree))) → Prop where
  /-- There is no text to look at. -/
  | lost (h : p.cursor.operator? = none) : Attempt p fun _ ↦ none
  /-- Nothing is taken. -/
  | still (a : Except SyntaxError (Bool × Option Tree)) (h : ∀ o, a ≠ .ok (true, o)) :
      Attempt p fun _ ↦ some (a, p)
  /-- An operator is passed, and the next deeper level is read behind it. -/
  | opens {op : Operator} (hop : p.cursor.operator? = some (some op)) (least : Connective)
      (refused : SyntaxError) {after : Parsed (Option Tree) → Option (Parsed (Bool × Option Tree))}
      (hafter : p.Continues after) :
      Attempt p fun inner ↦ ((p.advance op).nested inner least refused).bind after

namespace Attempt

variable {f : Next → Option (Parsed (Bool × Option Tree))}

theorem keeps (h : p.Attempt f) (hinner : Steady inner) : p.Keeps (f inner) := by
  cases h with
  | lost h => exact fun a q hq ↦ nomatch hq
  | still a h => exact keeps_some (.refl p)
  | opens hop least refused hafter =>
    exact ((keeps_nested hinner).bind hafter.keeps).mono (precedes_advance p _)

/-- **What is taken lies behind the cursor.** -/
theorem position_lt (h : p.Attempt f) (hinner : Steady inner) {o : Option Tree}
    (hq : f inner = some (.ok (true, o), q)) : p.cursor.position < q.cursor.position := by
  cases h with
  | lost h => cases hq
  | still a h =>
    cases hq
    exact absurd rfl (h o)
  | @opens op hop least refused after hafter =>
    have hkeeps : (p.advance op).Precedes q := (keeps_nested hinner).bind hafter.keeps _ _ hq
    exact Nat.lt_of_lt_of_le (p.cursor.position_lt_advance op) hkeeps.cursor.position_le

theorem congr (h : p.Attempt f) (hsame : p.SameBelow inner inner') : f inner = f inner' := by
  cases h with
  | lost h => rfl
  | still a h => rfl
  | opens hop least refused hafter => exact congrArg (Option.bind · _) (nested_congr hop hsame)

theorem answers (h : p.Attempt f) (hinner : Steady inner) (hp : p.cursor.BetweenCharacters)
    (hanswers : p.AnswersBelow inner) : Answers (f inner) := by
  cases h with
  | lost h =>
    obtain ⟨seen, hseen⟩ := hp.exists_operator?
    rw [h] at hseen
    cases hseen
  | still a h => exact ⟨a, p, rfl, hp⟩
  | @opens op hop least refused after hafter =>
    refine (answers_nested hop hp hanswers).bind fun a q hq hbetween ↦ ?_
    have hpq : p.Precedes q := (precedes_advance p op).trans (keeps_nested hinner a q hq)
    exact hafter.answers a q hp hpq hbetween

theorem of_eq {f' : Next → Option (Parsed (Bool × Option Tree))} (h : p.Attempt f)
    (heq : ∀ inner, f' inner = f inner) : p.Attempt f' := by
  rwa [funext heq]

end Attempt

/-! ## Right-hand sides -/

/-- The error that blames the operator at the cursor. -/
def refusal (p : Parser) (op : Operator) : SyntaxError :=
  p.cursor.unexpected op.symbol.toList p.cursor.position

/-- What joins a right-hand side to the operand before its connective. -/
def attach (c : Connective) (l : Tree) (missing : SyntaxError) :
    Parsed (Option Tree) → Option (Parsed (Bool × Option Tree))
  | (.error e, q) => some (.error e, q)
  | (.ok none, q) => some (.error missing, q)
  | (.ok (some r), q) => some (.ok (true, some (.join c l r)), q)

theorem continues_attach (p : Parser) (c : Connective) (l : Tree) (missing : SyntaxError) :
    p.Continues (attach c l missing) where
  keeps a q := by
    rcases a with e | _ | r <;> exact keeps_some (.refl q)
  answers a q _ _ hq := by
    rcases a with e | _ | r <;> exact ⟨_, q, rfl, hq⟩

theorem join_some (inner : Next) (p : Parser) (c : Connective) (l : Tree) :
    p.join inner c (some l) =
      ((p.advance (.connective c)).nested inner c (p.refusal (.connective c))).bind
        (attach c l (p.refusal (.connective c))) := by
  rw [join, nested]
  cases (p.advance (.connective c)).deeper? with
  | none => rfl
  | some q =>
    simp only
    rcases inner q c false with _ | ⟨e | _ | r, q⟩ <;> rfl

theorem attempt_join (hop : p.cursor.operator? = some (some (.connective c)))
    (operand : Option Tree) : p.Attempt fun inner ↦ p.join inner c operand := by
  cases operand with
  | none => exact .still _ (by simp)
  | some l =>
    exact (Attempt.opens hop c _ (continues_attach p c l _)).of_eq fun inner ↦ join_some inner p c l

/-! ## Parentheses -/

/-- What closes the parentheses that were opened at a byte. -/
def enclosed (place : Nat) : Parsed (Option Tree) → Option (Parsed (Bool × Option Tree))
  | (.error e, q) => some (.error e, q)
  | (.ok content, q) => q.skipBlanks.close place content

theorem keeps_close (p : Parser) (place : Nat) (content : Option Tree) :
    p.Keeps (p.close place content) := by
  have hunclosed (f : List Char → Except SyntaxError (Bool × Option Tree)) :
      p.Keeps ((p.cursor.rest? place).map fun rest ↦ (f rest, p)) := by
    intro a q hq
    obtain ⟨rest, -, heq⟩ := Option.map_eq_some_iff.mp hq
    cases heq
    exact .refl p
  cases content with
  | none => exact hunclosed _
  | some t =>
    intro a q hq
    obtain ⟨seen, -, hq⟩ := Option.bind_eq_some_iff.mp hq
    split at hq
    · cases hq
      exact precedes_advance p _
    · exact hunclosed _ a q hq

theorem answers_close {place : Nat} (hp : p.cursor.BetweenCharacters) {rest : List Char}
    (hrest : p.cursor.rest? place = some rest) (content : Option Tree) :
    Answers (p.close place content) := by
  rw [close.eq_def, hrest]
  cases content with
  | none => exact ⟨_, p, rfl, hp⟩
  | some t =>
    obtain ⟨seen, hseen⟩ := hp.exists_operator?
    simp only [hseen, Option.bind_eq_bind, Option.bind_some]
    split
    · rename_i hparen
      exact ⟨_, _, rfl, hp.advance (hparen ▸ hseen)⟩
    · exact ⟨_, p, rfl, hp⟩

theorem continues_enclosed (p : Parser) : p.Continues (enclosed p.cursor.position) where
  keeps a q := by
    rcases a with e | content
    · exact keeps_some (.refl q)
    · exact (keeps_close _ _ content).mono (precedes_skipBlanks q)
  answers a q hp hpq hq := by
    rcases a with e | content
    · exact ⟨_, q, rfl, hq⟩
    · have hskip : p.Precedes q.skipBlanks := hpq.trans (precedes_skipBlanks q)
      obtain ⟨rest, hrest⟩ := hp.exists_rest? hskip.cursor.text_eq
      exact answers_close hq.skipBlanks hrest content

theorem enclose_none (inner : Next) (p : Parser) :
    p.enclose inner none =
      ((p.advance .leftParen).nested inner .or (p.refusal .leftParen)).bind
        (enclosed p.cursor.position) := by
  rw [enclose, nested]
  cases (p.advance .leftParen).deeper? with
  | none => rfl
  | some q =>
    simp only
    rcases inner q .or false with _ | ⟨e | content, q⟩ <;> rfl

theorem attempt_enclose (hop : p.cursor.operator? = some (some .leftParen))
    (operand : Option Tree) : p.Attempt fun inner ↦ p.enclose inner operand := by
  cases operand with
  | none =>
    exact (Attempt.opens hop .or _ (continues_enclosed p)).of_eq fun inner ↦ enclose_none inner p
  | some l => exact .still _ (by simp)

/-! ## Operators -/

theorem attempt_binary (p : Parser) (c least : Connective) (operand : Option Tree) :
    p.Attempt fun inner ↦ p.binary inner c least operand := by
  cases hseen : p.cursor.operator? with
  | none => exact (Attempt.lost hseen).of_eq fun inner ↦ by rw [binary, hseen]; rfl
  | some seen =>
    by_cases htaken : seen = some (.connective c) ∧ least.strength ≤ c.strength
    · obtain ⟨rfl, hc⟩ := htaken
      exact (attempt_join hseen operand).of_eq fun inner ↦ binary_of_seen hseen hc
    · refine (Attempt.still (.ok (false, operand)) (by simp)).of_eq fun inner ↦ ?_
      exact binary_of_not_seen hseen fun h ↦ Nat.lt_of_not_le fun hc ↦ htaken ⟨h, hc⟩

theorem attempt_group (p : Parser) (operand : Option Tree) :
    p.Attempt fun inner ↦ p.group inner operand := by
  cases hseen : p.cursor.operator? with
  | none => exact (Attempt.lost hseen).of_eq fun inner ↦ by rw [group, hseen]; rfl
  | some seen =>
    by_cases hparen : seen = some .leftParen
    · subst hparen
      exact (attempt_enclose hseen operand).of_eq fun inner ↦ group_of_seen hseen
    · refine (Attempt.still (.ok (false, operand)) (by simp)).of_eq fun inner ↦ ?_
      exact group_of_not_seen hseen hparen

theorem attempt_operator (p : Parser) (least : Connective) (operand : Option Tree) :
    p.Attempt fun inner ↦ p.operator inner least operand := by
  cases hseen : p.cursor.operator? with
  | none =>
    refine (Attempt.lost hseen).of_eq fun inner ↦ ?_
    rw [operator, binary, hseen]
    rfl
  | some seen =>
    by_cases htaken : ∃ c, seen = some (.connective c) ∧ least.strength ≤ c.strength
    · obtain ⟨c, rfl, hc⟩ := htaken
      exact (attempt_join hseen operand).of_eq fun inner ↦ operator_of_connective hseen hc
    · refine (attempt_group p operand).of_eq fun inner ↦ operator_of_not_connective hseen ?_
      exact fun c hc ↦ Nat.lt_of_not_le fun hle ↦ htaken ⟨c, hc, hle⟩

end Parser

/-! ## Any least strength -/

/-- How tightly the operators must bind that are taken: as a connective does, or as tightly as no
connective does, which leaves the parentheses. -/
inductive Precedence where
  | connective (least : Connective)
  | parentheses

namespace Parser

/-- Takes the connective `c` if it is at the cursor and binds tightly enough. -/
def binaryAt (inner : Next) (min : Precedence) (p : Parser) (c : Connective)
    (operand : Option Tree) : Option (Parsed (Bool × Option Tree)) :=
  match min with
  | .connective least => p.binary inner c least operand
  | .parentheses => p.cursor.operator?.map fun _ ↦ (.ok (false, operand), p)

/-- Tries every operator at the cursor. No connective is taken where only parentheses bind tightly
enough. -/
def operatorAt (inner : Next) (min : Precedence) (p : Parser) (operand : Option Tree) :
    Option (Parsed (Bool × Option Tree)) :=
  match min with
  | .connective least => p.operator inner least operand
  | .parentheses => p.group inner operand

theorem attempt_binaryAt (p : Parser) (min : Precedence) (c : Connective) (operand : Option Tree) :
    p.Attempt fun inner ↦ p.binaryAt inner min c operand := by
  cases min with
  | connective least => exact attempt_binary p c least operand
  | parentheses =>
    cases hseen : p.cursor.operator? with
    | none => exact (Attempt.lost hseen).of_eq fun inner ↦ by rw [binaryAt, hseen]; rfl
    | some seen =>
      refine (Attempt.still (.ok (false, operand)) (by simp)).of_eq fun inner ↦ ?_
      rw [binaryAt, hseen]
      rfl

theorem attempt_operatorAt (p : Parser) (min : Precedence) (operand : Option Tree) :
    p.Attempt fun inner ↦ p.operatorAt inner min operand := by
  cases min with
  | connective least => exact attempt_operator p least operand
  | parentheses => exact attempt_group p operand

end Parser

end Interpolation
