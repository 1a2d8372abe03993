import Mathlib
import Interpolation.Proofs.Expression.Attempts

/-!
# Climbing makes progress

Wherever a parser stands and however many levels are open, climbing takes it forward and closes the
levels that it opens, also if it fails. Each operator that is taken lies behind the last one, so the
loop over them comes to an end. What is read on the next deeper level lies behind the operator that
opens it: less of the text is left there. And no level is opened beyond the last one that there may
be, so that the number of levels that the reader was given never shows (`next_congr`).

Which calls are made is said by what an answer depends on (`Asks`), with no second account of the
parser: a level has the same answer with any two readers of the next deeper level that agree where
less of the text is left and one level more is open.
-/

namespace Interpolation

open Text

namespace Parser

/-! ## Levels -/

section Definitions

variable (inner : Next) (min : Precedence)

/-- Repeats a step between blanks for as long as it takes something. -/
def repeated (step : Parser → Option Tree → Option (Parsed (Bool × Option Tree))) (p : Parser)
    (operand : Option Tree) : Option (Parsed (Option Tree)) :=
  if p.skipBlanks.cursor.atEnd then some (.ok operand, p.skipBlanks)
  else
    match step p.skipBlanks operand with
    | none => none
    | some (.error e, q) => some (.error e, q)
    | some (.ok (false, operand), q) => some (.ok operand, q)
    | some (.ok (true, operand), q) =>
      if q.remaining < p.skipBlanks.remaining then repeated step q operand else none
termination_by p.remaining
decreasing_by exact Nat.lt_of_lt_of_le ‹_› p.remaining_skipBlanks_le

/-- One level. -/
def levelAt (p : Parser) (whole : Bool) : Option (Parsed (Option Tree)) :=
  (p.skipBlanks.atom.bind fun
    | (.error e, q) => some (.error e, q)
    | (.ok operand, q) => repeated (operatorAt inner min) q operand).bind (finish whole)

end Definitions

variable {α : Type} {inner inner' : Next} {min : Precedence} {p q : Parser} {least : Connective}
  {whole : Bool} {n m : Nat}

theorem operators_eq_repeated (inner : Next) (p : Parser) (least : Connective)
    (operand : Option Tree) : p.operators inner least operand =
      repeated (operatorAt inner (.connective least)) p operand := by
  have hstep : ∀ q o, q.operator inner least o = operatorAt inner (.connective least) q o :=
    fun _ _ ↦ rfl
  fun_induction repeated (operatorAt inner (.connective least)) p operand with
  | case1 p operand hend => rw [operators, if_pos hend]
  | case2 p operand hend h => rw [operators, if_neg hend, hstep, h]
  | case3 p operand hend e q h => rw [operators, if_neg hend, hstep, h]
  | case4 p operand hend o q h => rw [operators, if_neg hend, hstep, h]
  | case5 p operand hend o q h hlt ih =>
    rw [operators, if_neg hend, hstep, h]
    exact (if_pos hlt).trans ih
  | case6 p operand hend o q h hlt =>
    rw [operators, if_neg hend, hstep, h]
    exact if_neg hlt

theorem level_eq_levelAt (inner : Next) (p : Parser) (least : Connective) (whole : Bool) :
    p.level inner least whole = p.levelAt inner (.connective least) whole := by
  rw [level, expression, levelAt]
  simp only [operators_eq_repeated]
  rfl

/-! ## What a level does -/

theorem keeps_atom (p : Parser) : p.Keeps p.atom := by
  intro a q hq
  obtain ⟨⟨answer, b⟩, hnext, hq⟩ := Option.bind_eq_some_iff.mp hq
  have hb : p.Precedes { p with cursor := b } := ⟨ByteCursor.precedes_of_next hnext, rfl⟩
  rcases answer with e | _ | ⟨s | s | op, place⟩
  · cases hq
    exact hb
  · cases hq
    exact .refl p
  · cases hq
    exact hb
  · cases hq
    exact hb
  · cases hq
    exact .refl p

theorem answers_atom (hp : p.cursor.BetweenCharacters) : Answers p.atom := by
  obtain ⟨answer, b, hnext, hb⟩ := hp.exists_next
  rw [atom, hnext]
  rcases answer with e | _ | ⟨s | s | op, place⟩
  · exact ⟨_, _, rfl, hb⟩
  · exact ⟨_, _, rfl, hp⟩
  · exact ⟨_, _, rfl, hb⟩
  · exact ⟨_, _, rfl, hb⟩
  · exact ⟨_, _, rfl, hp⟩

theorem keeps_finish (p : Parser) (whole : Bool) (a : Except SyntaxError (Option Tree)) :
    p.Keeps (finish whole (a, p)) := by
  rcases a with e | operand
  · exact keeps_some (.refl p)
  · rw [finish]
    split
    · intro a q hq
      obtain ⟨e, -, heq⟩ := Option.map_eq_some_iff.mp hq
      cases heq
      exact .refl p
    · exact keeps_some (.refl p)

theorem answers_finish (hp : p.cursor.BetweenCharacters) (whole : Bool)
    (a : Except SyntaxError (Option Tree)) : Answers (finish whole (a, p)) := by
  rcases a with e | operand
  · exact ⟨_, p, rfl, hp⟩
  · rw [finish]
    split
    · obtain ⟨e, he⟩ := hp.exists_unexpectedHere?
      rw [he]
      exact ⟨_, p, rfl, hp⟩
    · exact ⟨_, p, rfl, hp⟩

section Repeated

variable {step step' : Parser → Option Tree → Option (Parsed (Bool × Option Tree))}

theorem keeps_repeated (hstep : ∀ (q : Parser) o, q.Keeps (step q o)) (p : Parser)
    (operand : Option Tree) : p.Keeps (repeated step p operand) := by
  fun_induction repeated step p operand with
  | case1 p operand hend => exact keeps_some p.precedes_skipBlanks
  | case2 p operand hend h => exact fun a q hq ↦ nomatch hq
  | case3 p operand hend e q h => exact keeps_some (p.precedes_skipBlanks.trans (hstep _ _ _ q h))
  | case4 p operand hend o q h => exact keeps_some (p.precedes_skipBlanks.trans (hstep _ _ _ q h))
  | case5 p operand hend o q h hlt ih =>
    exact ih.mono (p.precedes_skipBlanks.trans (hstep _ _ _ q h))
  | case6 p operand hend o q h hlt => exact fun a q hq ↦ nomatch hq

/-- The steps of a loop begin in no other states than those further on. -/
theorem repeated_congr (hstep : ∀ (q : Parser) o, q.Keeps (step q o))
    (hsame : ∀ q o, p.Precedes q → step q o = step' q o) (operand : Option Tree) :
    repeated step p operand = repeated step' p operand := by
  fun_induction repeated step p operand with
  | case1 p operand hend => rw [repeated.eq_def step', if_pos hend]
  | case2 p operand hend h =>
    rw [repeated.eq_def step', if_neg hend, ← hsame _ _ p.precedes_skipBlanks, h]
  | case3 p operand hend e q h =>
    rw [repeated.eq_def step', if_neg hend, ← hsame _ _ p.precedes_skipBlanks, h]
  | case4 p operand hend o q h =>
    rw [repeated.eq_def step', if_neg hend, ← hsame _ _ p.precedes_skipBlanks, h]
  | case5 p operand hend o q h hlt ih =>
    have hpq : p.Precedes q := p.precedes_skipBlanks.trans (hstep _ _ _ q h)
    rw [repeated.eq_def step', if_neg hend, ← hsame _ _ p.precedes_skipBlanks, h]
    exact (ih fun r o hqr ↦ hsame r o (hpq.trans hqr)).trans (if_pos hlt).symm
  | case6 p operand hend o q h hlt =>
    rw [repeated.eq_def step', if_neg hend, ← hsame _ _ p.precedes_skipBlanks, h]
    exact (if_neg hlt).symm

/-- **The loop comes to an end**, since each step that takes something moves on. -/
theorem answers_repeated (hstep : ∀ (q : Parser) o, q.Keeps (step q o))
    (hmoves : ∀ (q : Parser) o o' r, step q o = some (.ok (true, o'), r) →
      q.cursor.position < r.cursor.position)
    (hanswers : ∀ (q : Parser) o, p.Precedes q → q.cursor.BetweenCharacters → Answers (step q o))
    (hp : p.cursor.BetweenCharacters) (operand : Option Tree) :
    Answers (repeated step p operand) := by
  fun_induction repeated step p operand with
  | case1 p operand hend => exact ⟨_, _, rfl, hp.skipBlanks⟩
  | case2 p operand hend h =>
    obtain ⟨a, q, hq, -⟩ := hanswers _ operand p.precedes_skipBlanks hp.skipBlanks
    rw [h] at hq
    cases hq
  | case3 p operand hend e q h =>
    exact ⟨_, q, rfl, (hanswers _ operand p.precedes_skipBlanks hp.skipBlanks).between h⟩
  | case4 p operand hend o q h =>
    exact ⟨_, q, rfl, (hanswers _ operand p.precedes_skipBlanks hp.skipBlanks).between h⟩
  | case5 p operand hend o q h hlt ih =>
    have hpq : p.Precedes q := p.precedes_skipBlanks.trans (hstep _ _ _ q h)
    refine ih (fun r o hqr ↦ hanswers r o (hpq.trans hqr)) ?_
    exact (hanswers _ operand p.precedes_skipBlanks hp.skipBlanks).between h
  | case6 p operand hend o q h hlt =>
    have hmore : p.skipBlanks.cursor.position < byteLength p.skipBlanks.cursor.text := by
      simpa [ByteCursor.atEnd] using hend
    exact absurd (remaining_lt hmore (hstep _ _ _ q h).cursor (hmoves _ _ _ q h)) hlt

end Repeated

theorem keeps_levelAt (hinner : Steady inner) (p : Parser) (min : Precedence) (whole : Bool) :
    p.Keeps (p.levelAt inner min whole) := by
  refine Keeps.bind ?_ fun a q ↦ keeps_finish q whole a
  refine ((keeps_atom p.skipBlanks).bind fun a q ↦ ?_).mono p.precedes_skipBlanks
  rcases a with e | operand
  · exact keeps_some (.refl q)
  · exact keeps_repeated (fun r o ↦ (attempt_operatorAt r min o).keeps hinner) q operand

/-- **What a level depends on.** -/
theorem levelAt_congr (hinner : Steady inner) (hsame : p.SameBelow inner inner') :
    p.levelAt inner min whole = p.levelAt inner' min whole := by
  rw [levelAt, levelAt]
  refine congrArg (Option.bind · _) (Option.bind_congr fun answer hanswer ↦ ?_)
  obtain ⟨e | operand, q⟩ := answer
  · rfl
  have hpq : p.Precedes q := p.precedes_skipBlanks.trans (keeps_atom _ _ q hanswer)
  refine repeated_congr (fun r o ↦ (attempt_operatorAt r min o).keeps hinner)
    (fun r o hqr ↦ ?_) operand
  exact (attempt_operatorAt r min o).congr (hsame.of_precedes (hpq.trans hqr))

theorem answers_levelAt (hinner : Steady inner) (hanswers : p.AnswersBelow inner)
    (hp : p.cursor.BetweenCharacters) : Answers (p.levelAt inner min whole) := by
  refine Answers.bind ?_ fun a q _ hq ↦ answers_finish hq whole a
  refine (answers_atom hp.skipBlanks).bind fun a q hatom hq ↦ ?_
  rcases a with e | operand
  · exact ⟨_, q, rfl, hq⟩
  have hpq : p.Precedes q := p.precedes_skipBlanks.trans (keeps_atom _ _ q hatom)
  refine answers_repeated (fun r o ↦ (attempt_operatorAt r min o).keeps hinner)
    (fun r o o' r' ↦ (attempt_operatorAt r min o).position_lt hinner)
    (fun r o hqr hr ↦ ?_) hq operand
  exact (attempt_operatorAt r min o).answers hinner hr (hanswers.of_precedes (hpq.trans hqr))

/-! ## All levels -/

theorem steady_next (n : Nat) : Steady (next n) := by
  induction n with
  | zero => exact fun p least whole a q hq ↦ nomatch hq
  | succ n ih =>
    intro p least whole
    rw [next, level_eq_levelAt]
    exact keeps_levelAt ih p _ whole

/-- It does not matter how many levels there may be, as long as there are enough. -/
theorem next_congr (hp : p.depth ≤ Tree.maxLevels) (hn : Tree.maxLevels < n + p.depth)
    (hm : Tree.maxLevels < m + p.depth) : next n p least whole = next m p least whole := by
  induction n generalizing m p least whole with
  | zero => omega
  | succ n ih =>
    obtain _ | m := m
    · omega
    rw [next, next, level_eq_levelAt, level_eq_levelAt]
    refine levelAt_congr (steady_next n) fun q c hq ↦ ?_
    have hdepth : q.depth = p.depth + 1 := hq.depth_eq
    exact ih hq.depth_le (by omega) (by omega)

/-- The reader with all levels that there may be. -/
def reader : Next := next (Tree.maxLevels + 1)

theorem steady_reader : Steady reader := steady_next _

/-- **The reader calls itself.** -/
theorem reader_eq_levelAt (p : Parser) (least : Connective) (whole : Bool) :
    reader p least whole = p.levelAt reader (.connective least) whole := by
  have hlevel : reader p least whole = p.level (next Tree.maxLevels) least whole := rfl
  rw [hlevel, level_eq_levelAt]
  refine levelAt_congr (steady_next _) fun q c hq ↦ ?_
  have hdepth : q.depth = p.depth + 1 := hq.depth_eq
  exact next_congr hq.depth_le (by omega) (by omega)

theorem answers_reader (hdepth : p.depth ≤ Tree.maxLevels) (hp : p.cursor.BetweenCharacters) :
    Answers (reader p least whole) := by
  -- The levels that are left get fewer.
  induction hlevels : Tree.maxLevels - p.depth generalizing p least whole with
  | zero =>
    rw [reader_eq_levelAt]
    refine answers_levelAt steady_reader (fun q c hq ↦ ?_) hp
    have hle := hq.depth_le
    have heq := hq.depth_eq
    omega
  | succ n ih =>
    rw [reader_eq_levelAt]
    refine answers_levelAt steady_reader (fun q c hq hbetween ↦ ih hq.depth_le hbetween ?_) hp
    have heq := hq.depth_eq
    omega

/-! ## Calls -/

/-- A call of the reader. -/
structure Request where
  parser : Parser
  least : Connective
  whole : Bool

/-- What a reader answers to a call. -/
def Request.answer (x : Request) (inner : Next) : Option (Parsed (Option Tree)) :=
  inner x.parser x.least x.whole

/-- What calls the reader makes this call: its answer is another one with some reader that answers
nothing but this call in another way. -/
def Asks (f : Next → Option (Parsed α)) (x : Request) : Prop :=
  ∃ inner : Next, (∀ y : Request, y ≠ x → y.answer inner = y.answer reader) ∧ f inner ≠ f reader

/-- The call `x` makes the call `y`. -/
def Request.Calls (x y : Request) : Prop :=
  Asks (fun inner ↦ x.parser.level inner x.least x.whole) y

/-- All calls that are made, those that calls make included. -/
inductive Makes (f : Next → Option (Parsed α)) : Request → Prop where
  | asked {x : Request} (h : Asks f x) : Makes f x
  | called {x y : Request} (h : Makes f x) (hy : x.Calls y) : Makes f y

variable {f : Next → Option (Parsed α)} {x y : Request}

/-- The next deeper level is read with one call. -/
theorem asks_nested_iff {refused : SyntaxError} :
    Asks (fun inner ↦ p.nested inner least refused) x ↔
      ∃ q, p.deeper? = some q ∧ x = ⟨q, least, false⟩ := by
  constructor
  · rintro ⟨inner, hother, hne⟩
    simp only [nested] at hne
    cases hq : p.deeper? with
    | none => simp only [hq, ne_eq, not_true_eq_false] at hne
    | some q =>
      refine ⟨q, rfl, by_contra fun hx ↦ hne ?_⟩
      have hsame : inner q least false = reader q least false := hother _ (Ne.symm hx)
      simp only [hq, hsame]
  · rintro ⟨q, hq, rfl⟩
    classical
    -- No answer to the call where there is one, and any where there is none.
    let changed : Option (Parsed (Option Tree)) :=
      if reader q least false = none then some (.ok none, q) else none
    refine ⟨fun r c w ↦ if (⟨r, c, w⟩ : Request) = ⟨q, least, false⟩ then changed else reader r c w,
      fun y hy ↦ if_neg hy, ?_⟩
    by_cases hnone : reader q least false = none
    · simp [nested, hq, hnone, changed]
    · obtain ⟨a, ha⟩ := Option.ne_none_iff_exists'.mp hnone
      simp [nested, hq, ha, changed]

theorem Asks.below (h : Asks f x)
    (hcongr : ∀ inner, p.SameBelow reader inner → f reader = f inner) : p.Below x.parser := by
  obtain ⟨inner, hother, hne⟩ := h
  by_contra hbelow
  refine hne (hcongr inner fun q c hq ↦ ?_).symm
  exact (hother ⟨q, c, false⟩ fun heq ↦ hbelow (heq ▸ hq)).symm

/-- **One call makes another.** -/
theorem Request.Calls.below (h : x.Calls y) : x.parser.Below y.parser := by
  refine Asks.below h fun inner hsame ↦ ?_
  rw [level_eq_levelAt, level_eq_levelAt]
  exact levelAt_congr steady_reader hsame

/-- **All calls.** -/
theorem Makes.remaining_lt (h : Makes f x)
    (hcongr : ∀ inner, p.SameBelow reader inner → f reader = f inner) :
    x.parser.remaining < p.remaining := by
  induction h with
  | asked h => exact (h.below hcongr).remaining_lt
  | called _ hy ih => exact hy.below.remaining_lt.trans ih

theorem Makes.depth_le (h : Makes f x)
    (hcongr : ∀ inner, p.SameBelow reader inner → f reader = f inner) :
    x.parser.depth ≤ Tree.maxLevels := by
  cases h with
  | asked h => exact (h.below hcongr).depth_le
  | called h hy => exact hy.below.depth_le

/-- What begins at `p` and calls the reader goes forward and closes the levels that it opens. All
calls are made where less of the text is left than at `p`, each of them also where less is left than
in the call that makes it, and none opens a level beyond the last one that there may be. There is an
answer if the cursor stands between two characters and not too many levels are open. -/
structure Orderly (p : Parser) (f : Next → Option (Parsed α)) : Prop where
  position_le : ∀ a q, f reader = some (a, q) → p.cursor.position ≤ q.cursor.position
  depth_eq : ∀ a q, f reader = some (a, q) → q.depth = p.depth
  made_lt : ∀ x, Makes f x → x.parser.remaining < p.remaining
  called_lt : ∀ x y, Makes f x → x.Calls y → y.parser.remaining < x.parser.remaining
  depth_le : ∀ x, Makes f x → x.parser.depth ≤ Tree.maxLevels
  exists_answer : p.cursor.BetweenCharacters → p.depth ≤ Tree.maxLevels →
    ∃ a q, f reader = some (a, q)

theorem orderly (hkeeps : p.Keeps (f reader))
    (hcongr : ∀ inner, p.SameBelow reader inner → f reader = f inner)
    (hanswers : p.cursor.BetweenCharacters → p.depth ≤ Tree.maxLevels → Answers (f reader)) :
    p.Orderly f where
  position_le a q hq := (hkeeps a q hq).cursor.position_le
  depth_eq a q hq := (hkeeps a q hq).depth_eq
  made_lt x hx := hx.remaining_lt hcongr
  called_lt x y _ hy := hy.below.remaining_lt
  depth_le x hx := hx.depth_le hcongr
  exists_answer hp hdepth := by
    obtain ⟨a, q, hq, -⟩ := hanswers hp hdepth
    exact ⟨a, q, hq⟩

theorem answersBelow_reader (p : Parser) : p.AnswersBelow reader :=
  fun _ _ hq hbetween ↦ answers_reader hq.depth_le hbetween

theorem Attempt.orderly {f : Next → Option (Parsed (Bool × Option Tree))} (h : p.Attempt f) :
    p.Orderly f :=
  Parser.orderly (h.keeps steady_reader) (fun _ hsame ↦ h.congr hsame)
    fun hp _ ↦ h.answers steady_reader hp p.answersBelow_reader

/-- **Climbing makes progress**, wherever the cursor stands, however many levels are open and
however tightly operators must bind. An expression, an operand, any operator, a connective and a
pair of parentheses are read forward and never back, with as many levels open behind them as before,
also if reading fails. The reader, which reads what `levelAt` reads with it (`reader_eq_levelAt`),
is called only where strictly less of the text is left, and never too deep. If an operator is taken,
the cursor has moved on. -/
theorem climbing_makes_progress (p : Parser) (min : Precedence) :
    (∀ whole, p.Orderly fun inner ↦ p.levelAt inner min whole) ∧
      (p.Orderly fun _ ↦ p.atom) ∧
      (∀ operand, p.Orderly fun inner ↦ p.operatorAt inner min operand) ∧
      (∀ c operand, p.Orderly fun inner ↦ p.binaryAt inner min c operand) ∧
      (∀ operand, p.Orderly fun inner ↦ p.group inner operand) ∧
      ∀ operand result q, p.operatorAt reader min operand = some (.ok (true, result), q) →
        p.cursor.position < q.cursor.position := by
  refine ⟨fun whole ↦ ?_, ?_, fun operand ↦ (attempt_operatorAt p min operand).orderly,
    fun c operand ↦ (attempt_binaryAt p min c operand).orderly,
    fun operand ↦ (attempt_group p operand).orderly,
    fun operand result q ↦ (attempt_operatorAt p min operand).position_lt steady_reader⟩
  · exact orderly (keeps_levelAt steady_reader p min whole)
      (fun inner hsame ↦ levelAt_congr steady_reader hsame)
      fun hp _ ↦ answers_levelAt steady_reader p.answersBelow_reader hp
  · exact orderly p.keeps_atom (fun _ _ ↦ rfl) fun hp _ ↦ answers_atom hp

set_option maxRecDepth 4000 in
/-- An operator is taken with its right-hand side. -/
theorem climbing_makes_progress_or :
    let p : Parser := ⟨⟨['a', '|', '|', 'b'], 0, 1⟩, 0⟩
    let q : Parser := ⟨⟨['a', '|', '|', 'b'], 0, 4⟩, 0⟩
    p.operatorAt reader (.connective .or) (some (.name "a")) =
        some (.ok (true, some (.join .or (.name "a") (.name "b"))), q) ∧
      p.cursor.position < q.cursor.position := by
  intro p q
  have htaken : p.operatorAt reader (.connective .or) (some (.name "a")) =
      some (.ok (true, some (.join .or (.name "a") (.name "b"))), q) := by cbv
  obtain ⟨-, -, -, -, -, hmoves⟩ := climbing_makes_progress p (.connective .or)
  exact ⟨htaken, hmoves _ _ q htaken⟩

end Parser

end Interpolation
