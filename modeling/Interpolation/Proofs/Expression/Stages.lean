import Interpolation.Proofs.Expression.Grammar

/-!
# A level of an expression, step by step

The reader joins an operand with what follows it in three stages, one for each connective, the
tightest first. It may as well join with the connective that follows, whichever it is, and then
begin anew: a right-hand side takes along whatever binds as tightly as its connective, so only
weaker connectives are left behind it, and the stages up to this one have nothing more to do.
-/

namespace Interpolation

/-- What a token is as an operand. -/
def Token.operand? : Token → Option Tree
  | .name s => some (.name s)
  | .quoted s => some (.quoted s)
  | .operator _ => none

namespace Tree

variable {deeper : Option Reader} {least k : Connective} {t : Tree} {l : Lexeme}
  {ls tail : List Lexeme} {n : Nat}

/-! ## The joins of a level, one connective after another -/

/-- The next lexeme is no connective that binds at least as tightly as `k`. -/
def Loose (k : Connective) (ls : List Lexeme) : Prop :=
  ∀ c : Connective, k.strength ≤ c.strength → NotNext c ls

/-- The stage of a level that joins with `c`, if `c` belongs to the level. -/
def stage (deeper : Option Reader) (least c : Connective) (p : Tree × List Lexeme) :
    Except SyntaxError (Tree × List Lexeme) :=
  if least.strength ≤ c.strength then readJoin deeper c p.1 p.2 else .ok p

theorem readJoins_eq_stages : readJoins deeper least t ls = (do
    let p ← stage deeper least .dot (t, ls)
    let p ← stage deeper least .and p
    let p ← stage deeper least .or p
    refuseParen p.1 p.2) := by
  cases least <;> rfl

theorem stage_of_notNext {p : Tree × List Lexeme}
    (h : least.strength ≤ k.strength → NotNext k p.2) : stage deeper least k p = .ok p := by
  rw [stage]
  by_cases hk : least.strength ≤ k.strength
  · rw [if_pos hk, readJoin_of_notNext (h hk)]
  · rw [if_neg hk]

theorem readJoins_of_loose (h : Loose least ls) :
    readJoins deeper least t ls = refuseParen t ls := by
  have hstage : ∀ c, stage deeper least c (t, ls) = .ok (t, ls) := fun c ↦ stage_of_notNext (h c)
  simp only [readJoins_eq_stages, hstage, bind, Except.bind]

/-- A right-hand side takes all connectives that bind as tightly. -/
theorem loose_of_readJoin (hd : Covers deeper n) (hl : l.token = .operator (.connective k))
    {p : Tree × List Lexeme} (h : readJoin deeper k t (l :: tail) = .ok p) : Loose k p.2 := by
  obtain ⟨u, rest⟩ := p
  rcases readJoin_eq_ok h with ⟨hnext, -, -⟩ | ⟨m, tail', r, read, hls, hm, hread, hr, -⟩
  · exact absurd hl (hnext l rfl)
  · obtain ⟨hphrase, -⟩ := (hd k tail' r rest).mp ⟨read, hread, hr⟩
    intro c hc l' hl' hconn
    exact Nat.not_lt.mpr hc ((hphrase.stops l' hl').2 c hconn)

/-- **The tightest connective need not come first.** A level may as well join with the connective
that follows, whichever it is, and go on from there. -/
theorem readJoins_cons (hd : Covers deeper n) (hl : l.token = .operator (.connective k))
    (hk : least.strength ≤ k.strength) :
    readJoins deeper least t (l :: tail) = (do
      let p ← readJoin deeper k t (l :: tail)
      readJoins deeper least p.1 p.2) := by
  have hother : ∀ c ≠ k, NotNext c (l :: tail) := by
    intro c hc l' hl' hconn
    cases hl'
    rw [hl] at hconn
    cases hconn
    exact hc rfl
  have hbefore : ∀ c ≠ k, stage deeper least c (t, l :: tail) = .ok (t, l :: tail) :=
    fun c hc ↦ stage_of_notNext fun _ ↦ hother c hc
  have hstage : stage deeper least k (t, l :: tail) = readJoin deeper k t (l :: tail) := if_pos hk
  rcases hj : readJoin deeper k t (l :: tail) with e | p
  · rw [hj] at hstage
    cases k with
    | dot => simp only [readJoins_eq_stages, hstage, bind, Except.bind]
    | and => simp only [readJoins_eq_stages, hbefore .dot (by decide), hstage, bind, Except.bind]
    | or => simp only [readJoins_eq_stages, hbefore .dot (by decide), hbefore .and (by decide),
        hstage, bind, Except.bind]
  -- Behind the join, the stages down to `k` have nothing to do.
  · have hafter : ∀ c : Connective, k.strength ≤ c.strength → stage deeper least c p = .ok p :=
      fun c hc ↦ stage_of_notNext fun _ ↦ loose_of_readJoin hd hl hj c hc
    rw [hj] at hstage
    cases k with
    | dot => simp only [readJoins_eq_stages, hstage, hafter .dot (by decide), bind, Except.bind]
    | and => simp only [readJoins_eq_stages, hbefore .dot (by decide), hstage,
        hafter .dot (by decide), hafter .and (by decide), bind, Except.bind]
    | or => simp only [readJoins_eq_stages, hbefore .dot (by decide), hbefore .and (by decide),
        hstage, hafter .dot (by decide), hafter .and (by decide), hafter .or (by decide), bind,
        Except.bind]

/-! ## A level from its operand on -/

/-- The end of a pair of parentheses that was opened at `start`, given what was read behind that. -/
def closePair (start : Cursor) : Reading → Except SyntaxError (Tree × List Lexeme)
  | .error e => .error e
  | .ok (some t, ⟨_, .operator .rightParen⟩ :: rest) => .ok (.group t, rest)
  | .ok _ => .error (start.unexpected start.rest)

theorem readOperand_leftParen {out : Ending} {read : Reader} {c : Cursor} :
    readOperand out (some read) least (⟨c, .operator .leftParen⟩ :: tail) =
      certain (closePair c (read .or tail)) := by
  simp only [readOperand]
  generalize read .or tail = reading
  rcases reading with e | ⟨_ | t, _ | ⟨⟨start, _ | _ | _ | _ | _⟩, rest⟩⟩ <;> rfl

theorem readOperand_of_operand? {out : Ending} (h : l.token.operand? = some t) :
    readOperand out deeper least (l :: tail) = certain (.ok (t, tail)) := by
  obtain ⟨start, token⟩ := l
  cases token with
  | name s => cases h; rfl
  | quoted s => cases h; rfl
  | operator op => cases h

theorem readLevel_of_certain {out : Ending} {reading : Except SyntaxError (Tree × List Lexeme)}
    (h : readOperand out deeper least ls = certain reading) :
    readLevel out deeper least ls =
      certain (reading >>= fun p ↦ readJoins deeper least p.1 p.2) := by
  rw [readLevel, h]
  rcases reading with e | ⟨t, rest⟩ <;> rfl

end Tree

end Interpolation
