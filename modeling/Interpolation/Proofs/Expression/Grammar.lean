import Interpolation.Expression.Grammar
import Interpolation.Proofs.Expression.Scanning

/-!
# What the reader of expressions accepts

The reader builds a tree exactly if the text scans to the tokens of that tree, the tree is
canonical, and it is not nested too deeply. There is then only one such tree, since the reader is a
function.

## Strengths instead of connectives

Each stage of a level binds one strength more loosely than the stage before: operands, then `.`,
then `&&`, then `||`. All of them are instances of one statement, `Phrase k`, about the trees whose
connectives outside of parentheses have at least strength `k`; an operand is a phrase of strength 3,
which no connective has. One step, `thenJoin_step`, goes from `k + 1` to `k`, and three such steps
make a level.

## What follows a phrase

A reader takes as much as it can. That it stops at the right place is part of the invariant:
`Stops k rest` says that what is left cannot continue a phrase of strength `k`. An opening
parenthesis cannot stand there either, because the reader refuses it.
-/

namespace Interpolation

namespace Tree

/-! ## Spelled trees -/

/-- The lexemes `ls` begin with the tokens of `t`, and `rest` is what follows them. -/
def Consumes (ls : List Lexeme) (t : Tree) (rest : List Lexeme) : Prop :=
  ∃ taken, ls = taken ++ rest ∧ taken.map Lexeme.token = t.tokens

variable {ls rest : List Lexeme} {t l r : Tree}

theorem consumes_nil_iff : Consumes ls t [] ↔ ls.map Lexeme.token = t.tokens := by
  simp [Consumes]

theorem consumes_singleton_iff {tok : Token} (h : t.tokens = [tok]) :
    Consumes ls t rest ↔ ∃ l, ls = l :: rest ∧ l.token = tok := by
  constructor
  · rintro ⟨taken, rfl, ht⟩
    rw [h, List.map_eq_singleton_iff] at ht
    obtain ⟨l, rfl, hl⟩ := ht
    exact ⟨l, rfl, hl⟩
  · rintro ⟨l, rfl, hl⟩
    exact ⟨[l], rfl, by rw [h, List.map_singleton, hl]⟩

theorem consumes_join_iff {c : Connective} :
    Consumes ls (join c l r) rest ↔ ∃ m mid, Consumes ls l (m :: mid) ∧
      m.token = .operator (.connective c) ∧ Consumes mid r rest := by
  constructor
  · rintro ⟨taken, rfl, ht⟩
    rw [tokens, List.map_eq_append_iff] at ht
    obtain ⟨ll, lr, rfl, hl, hr⟩ := ht
    rw [List.map_eq_cons_iff] at hr
    obtain ⟨m, lr, rfl, hm, hr⟩ := hr
    exact ⟨m, lr ++ rest, ⟨ll, by simp, hl⟩, hm, lr, rfl, hr⟩
  · rintro ⟨m, _, ⟨ll, rfl, hl⟩, hm, lr, rfl, hr⟩
    exact ⟨ll ++ m :: lr, by simp, by simp [tokens, hl, hm, hr]⟩

theorem consumes_group_iff :
    Consumes ls (group t) rest ↔ ∃ m mid m', ls = m :: mid ∧ m.token = .operator .leftParen ∧
      Consumes mid t (m' :: rest) ∧ m'.token = .operator .rightParen := by
  constructor
  · rintro ⟨taken, rfl, ht⟩
    rw [tokens, List.map_eq_cons_iff] at ht
    obtain ⟨m, tail, rfl, hm, ht⟩ := ht
    rw [List.map_eq_append_iff] at ht
    obtain ⟨lt, last, rfl, ht, hlast⟩ := ht
    rw [List.map_eq_singleton_iff] at hlast
    obtain ⟨m', rfl, hm'⟩ := hlast
    exact ⟨m, lt ++ m' :: rest, m', by simp, hm, ⟨lt, rfl, ht⟩, hm'⟩
  · rintro ⟨m, _, m', rfl, hm, ⟨lt, rfl, ht⟩, hm'⟩
    exact ⟨m :: (lt ++ [m']), by simp, by simp [tokens, hm, ht, hm']⟩

/-! ## Phrases -/

/-- The connective at the root, if there is any, has at least strength `k`. -/
def Binds (k : Nat) (t : Tree) : Prop := ∀ c, t.root? = some c → k ≤ c.strength

/-- Lexemes with which a phrase of strength `k` cannot go on. -/
def Stops (k : Nat) (ls : List Lexeme) : Prop :=
  ∀ l ∈ ls.head?, l.token ≠ .operator .leftParen ∧
    ∀ c, l.token = .operator (.connective c) → c.strength < k

/-- From `ls`, a tree of strength `k` is read, and `rest` is left. -/
structure Phrase (k : Nat) (ls : List Lexeme) (t : Tree) (rest : List Lexeme) : Prop where
  consumes : Consumes ls t rest
  canonical : t.Canonical
  binds : t.Binds k
  stops : Stops k rest

/-- There is no opening parenthesis in front. -/
def NoParen (ls : List Lexeme) : Prop := ∀ l ∈ ls.head?, l.token ≠ .operator .leftParen

/-- A connective in front does not hurt where parentheses do. -/
theorem noParen_of_connective {m : Lexeme} {c : Connective}
    (h : m.token = .operator (.connective c)) : NoParen (m :: ls) := by
  intro l hl
  cases hl
  simp [h]

theorem Stops.noParen {k : Nat} (h : Stops k ls) : NoParen ls := fun l hl ↦ (h l hl).1

theorem Stops.mono {j k : Nat} (hjk : j ≤ k) (h : Stops j ls) : Stops k ls := fun l hl ↦
  ⟨(h l hl).1, fun c hc ↦ Nat.lt_of_lt_of_le ((h l hl).2 c hc) hjk⟩

theorem strength_lt_three (c : Connective) : c.strength < 3 := by cases c <;> decide

theorem strength_injective {c d : Connective} (h : c.strength = d.strength) : c = d := by
  cases c <;> cases d <;> simp_all [Connective.strength]

theorem binds_three_iff : t.Binds 3 ↔ t.root? = none := by
  constructor
  · intro h
    cases hr : t.root? with
    | none => rfl
    | some c => exact absurd (h c hr) (Nat.not_le.mpr (strength_lt_three c))
  · intro h c hc
    rw [h] at hc
    cases hc

theorem stops_three_iff : Stops 3 ls ↔ NoParen ls :=
  ⟨Stops.noParen, fun h l hl ↦ ⟨h l hl, fun c _ ↦ strength_lt_three c⟩⟩

/-- A tree that binds at least as tightly as a connective, but does not have it at the root, binds
more tightly. -/
theorem Binds.succ {c : Connective} (h : t.Binds c.strength) (hne : t.root? ≠ some c) :
    t.Binds (c.strength + 1) := by
  intro d hd
  rcases Nat.lt_or_eq_of_le (h d hd) with hlt | heq
  · exact hlt
  · exact absurd (strength_injective heq ▸ hd) hne

/-- The canonical form of a join, by the strengths of its sides. -/
theorem canonical_join_iff {c : Connective} : (join c l r).Canonical ↔
    l.Binds (c.strength + 1) ∧ r.Binds c.strength ∧ l.Canonical ∧ r.Canonical := Iff.rfl

/-! ## The reader of the next deeper level -/

/-- The reader of the next deeper level gives the phrases of nesting less than `n`. With `n = 0` it
gives nothing, and need not be there. -/
def Covers (deeper : Option Reader) (n : Nat) : Prop := ∀ c ls t rest,
  (∃ read, deeper = some read ∧ read c ls = .ok (some t, rest)) ↔
    Phrase c.strength ls t rest ∧ t.nesting < n

theorem covers_none : Covers none 0 := by
  intro c ls t rest
  simp

variable {ending : Ending} {deeper : Option Reader} {least : Connective} {n : Nat}

/-! ## Operands -/

theorem binds_zero (t : Tree) : t.Binds 0 := fun _ _ ↦ Nat.zero_le _

/-- Any phrase may stand before a closing parenthesis. -/
theorem stops_rightParen {k : Nat} {m : Lexeme} (h : m.token = .operator .rightParen) :
    Stops k (m :: ls) := by
  intro l hl
  cases hl
  simp [h]

theorem phrase_three_iff :
    Phrase 3 ls t rest ↔ Consumes ls t rest ∧ t.Canonical ∧ t.root? = none ∧ NoParen rest := by
  constructor
  · rintro ⟨hc, hcan, hb, hs⟩
    exact ⟨hc, hcan, binds_three_iff.mp hb, hs.noParen⟩
  · rintro ⟨hc, hcan, hb, hs⟩
    exact ⟨hc, hcan, binds_three_iff.mpr hb, stops_three_iff.mpr hs⟩

theorem readOperand_sound (hd : Covers deeper n)
    (h : readOperand ending deeper least ls = .ok (some t, rest)) :
    Consumes ls t rest ∧ t.Canonical ∧ t.root? = none ∧ t.nesting ≤ n := by
  obtain _ | ⟨⟨start, token⟩, tail⟩ := ls
  · cases ending <;> simp [readOperand] at h
  match token with
  | .name s =>
    cases h
    exact ⟨(consumes_singleton_iff rfl).mpr ⟨_, rfl, rfl⟩, trivial, rfl, Nat.zero_le n⟩
  | .quoted s =>
    cases h
    exact ⟨(consumes_singleton_iff rfl).mpr ⟨_, rfl, rfl⟩, trivial, rfl, Nat.zero_le n⟩
  | .operator (.connective c) =>
    simp only [readOperand] at h
    split at h <;> cases h
  | .operator .rightParen => cases h
  | .operator .leftParen =>
    obtain _ | read := deeper
    · cases h
    simp only [readOperand] at h
    split at h
    · cases h
    · rename_i u start' rest' hr
      cases h
      -- The content of the parentheses is a phrase of the next deeper level.
      obtain ⟨hu, hn⟩ := (hd .or tail u _).mp ⟨read, rfl, hr⟩
      refine ⟨consumes_group_iff.mpr ⟨_, _, _, rfl, rfl, hu.consumes, rfl⟩, hu.canonical, rfl, ?_⟩
      rw [nesting]
      omega
    · cases h

theorem readOperand_complete (hd : Covers deeper n) (hc : Consumes ls t rest) (hcan : t.Canonical)
    (hr : t.root? = none) (hn : t.nesting ≤ n) :
    readOperand ending deeper least ls = .ok (some t, rest) := by
  cases t with
  | name s =>
    obtain ⟨⟨start, token⟩, rfl, rfl⟩ := (consumes_singleton_iff rfl).mp hc
    rfl
  | quoted s =>
    obtain ⟨⟨start, token⟩, rfl, rfl⟩ := (consumes_singleton_iff rfl).mp hc
    rfl
  | group u =>
    obtain ⟨⟨start, _⟩, mid, ⟨start', _⟩, rfl, rfl, hu, rfl⟩ := consumes_group_iff.mp hc
    have hphrase : Phrase 0 mid u (⟨start', .operator .rightParen⟩ :: rest) :=
      ⟨hu, hcan, binds_zero u, stops_rightParen rfl⟩
    have hlt : u.nesting < n := by
      rw [nesting] at hn
      omega
    obtain ⟨read, rfl, hread⟩ := (hd .or mid u _).mpr ⟨hphrase, hlt⟩
    simp only [readOperand, hread]
  | join c l r => cases hr

/-- **Operands.** They are the phrases of the greatest strength. -/
theorem readOperand_eq_ok_some_iff (hd : Covers deeper n) :
    readOperand ending deeper least ls = .ok (some t, rest) ∧ NoParen rest ↔
      Phrase 3 ls t rest ∧ t.nesting ≤ n := by
  rw [phrase_three_iff]
  constructor
  · rintro ⟨h, hrest⟩
    obtain ⟨hc, hcan, hr, hn⟩ := readOperand_sound hd h
    exact ⟨⟨hc, hcan, hr, hrest⟩, hn⟩
  · rintro ⟨⟨hc, hcan, hr, hrest⟩, hn⟩
    exact ⟨readOperand_complete hd hc hcan hr hn, hrest⟩

/-! ## One more connective -/

/-- An answer in which there is a tree. -/
def certain : Except SyntaxError (Tree × List Lexeme) → Reading
  | .error e => .error e
  | .ok (t, rest) => .ok (some t, rest)

/-- Goes on after a tree with the right-hand side of a connective, if it follows. -/
def thenJoin (deeper : Option Reader) (c : Connective) : Reading → Reading
  | .ok (some t, rest) => certain (readJoin deeper c t rest)
  | answer => answer

theorem thenJoin_certain {c : Connective} (answer : Except SyntaxError (Tree × List Lexeme)) :
    thenJoin deeper c (certain answer) =
      certain (answer >>= fun p ↦ readJoin deeper c p.1 p.2) := by
  rcases answer with e | ⟨t, rest⟩ <;> rfl

theorem certain_eq_ok_some_iff {answer : Except SyntaxError (Tree × List Lexeme)} :
    certain answer = .ok (some t, rest) ↔ answer = .ok (t, rest) := by
  rcases answer with e | ⟨u, rest'⟩ <;> simp [certain]

theorem thenJoin_eq_ok_some_iff {c : Connective} {lower : Reading} :
    thenJoin deeper c lower = .ok (some t, rest) ↔
      ∃ left mid, lower = .ok (some left, mid) ∧ readJoin deeper c left mid = .ok (t, rest) := by
  constructor
  · intro h
    rcases lower with e | ⟨_ | left, mid⟩
    · cases h
    · cases h
    · exact ⟨left, mid, rfl, certain_eq_ok_some_iff.mp h⟩
  · rintro ⟨left, mid, rfl, hj⟩
    exact certain_eq_ok_some_iff.mpr hj

/-- The next lexeme is not the connective `c`. -/
def NotNext (c : Connective) (ls : List Lexeme) : Prop :=
  ∀ l ∈ ls.head?, l.token ≠ .operator (.connective c)

theorem stops_iff {c : Connective} :
    Stops c.strength ls ↔ Stops (c.strength + 1) ls ∧ NotNext c ls := by
  constructor
  · intro h
    refine ⟨h.mono (Nat.le_succ _), fun l hl hc ↦ ?_⟩
    exact Nat.lt_irrefl _ ((h l hl).2 c hc)
  · rintro ⟨h, hc⟩ l hl
    refine ⟨(h l hl).1, fun d hd ↦ ?_⟩
    rcases Nat.lt_or_eq_of_le (Nat.le_of_lt_succ ((h l hl).2 d hd)) with hlt | heq
    · exact hlt
    · exact absurd (strength_injective heq ▸ hd) (hc l hl)

theorem readJoin_of_notNext {c : Connective} (h : NotNext c ls) :
    readJoin deeper c t ls = .ok (t, ls) := by
  cases ls with
  | nil => rfl
  | cons m tail => rw [readJoin, if_neg (h m rfl)]

theorem readJoin_of_next {c : Connective} {m : Lexeme} {read : Reader}
    (hm : m.token = .operator (.connective c)) (hr : read c ls = .ok (some r, rest)) :
    readJoin (some read) c l (m :: ls) = .ok (join c l r, rest) := by
  rw [readJoin, if_pos hm]
  simp only [hr]

/-- Either the connective does not follow, or it is joined with what the deeper reader reads. -/
theorem readJoin_eq_ok {c : Connective} (h : readJoin deeper c l ls = .ok (t, rest)) :
    (NotNext c ls ∧ t = l ∧ rest = ls) ∨
      ∃ m tail r read, ls = m :: tail ∧ m.token = .operator (.connective c) ∧
        deeper = some read ∧ read c tail = .ok (some r, rest) ∧ t = join c l r := by
  cases ls with
  | nil =>
    cases h
    refine .inl ⟨fun l hl ↦ ?_, rfl, rfl⟩
    cases hl
  | cons m tail =>
    rw [readJoin] at h
    split at h
    · rename_i hm
      obtain _ | read := deeper
      · cases h
      simp only at h
      split at h
      · cases h
      · cases h
      · rename_i r rest' hr
        cases h
        exact .inr ⟨m, tail, r, read, rfl, hm, rfl, hr, rfl⟩
    · rename_i hm
      cases h
      refine .inl ⟨fun l hl ↦ ?_, rfl, rfl⟩
      cases hl
      exact hm

/-- In front of the connective of a join stops whatever binds more tightly. -/
theorem stops_connective {c : Connective} {m : Lexeme} (hm : m.token = .operator (.connective c)) :
    Stops (c.strength + 1) (m :: ls) := by
  intro x hx
  cases hx
  rw [hm]
  refine ⟨by simp, fun d hd ↦ ?_⟩
  cases hd
  exact Nat.lt_succ_self _

/-- A join is made of a phrase that binds more tightly, and of one that binds as tightly. -/
theorem Phrase.sides {c : Connective} (h : Phrase c.strength ls (join c l r) rest) :
    ∃ m mid, m.token = .operator (.connective c) ∧
      Phrase (c.strength + 1) ls l (m :: mid) ∧ Phrase c.strength mid r rest := by
  obtain ⟨hbl, hbr, hcl, hcr⟩ := canonical_join_iff.mp h.canonical
  obtain ⟨m, mid, hl, hm, hr⟩ := consumes_join_iff.mp h.consumes
  exact ⟨m, mid, hm, ⟨hl, hcl, hbl, stops_connective hm⟩, hr, hcr, hbr, h.stops⟩

/-- Without the connective at the root a phrase binds more tightly. -/
theorem Phrase.succ {c : Connective} (h : Phrase c.strength ls t rest) (hne : t.root? ≠ some c) :
    Phrase (c.strength + 1) ls t rest :=
  ⟨h.consumes, h.canonical, h.binds.succ hne, (stops_iff.mp h.stops).1⟩

theorem exists_join_of_root? {c : Connective} (h : t.root? = some c) : ∃ l r, t = join c l r := by
  cases t <;> cases h
  exact ⟨_, _, rfl⟩

/-- A stage reads exactly the phrases of a strength and of nesting at most `n`, unless an opening
parenthesis follows. -/
def ReadsPhrases (n strength : Nat) (ls : List Lexeme) (stage : Reading) : Prop :=
  ∀ t rest, stage = .ok (some t, rest) ∧ NoParen rest ↔ Phrase strength ls t rest ∧ t.nesting ≤ n

/-- **The step from one strength to the next.** If a stage reads the phrases that bind more tightly
than `c`, then the stage that also joins with `c` reads those that bind at least as tightly. -/
theorem thenJoin_step {c : Connective} (hd : Covers deeper n) {lower : Reading}
    (hlower : ReadsPhrases n (c.strength + 1) ls lower) :
    ReadsPhrases n c.strength ls (thenJoin deeper c lower) := by
  intro t rest
  rw [thenJoin_eq_ok_some_iff]
  constructor
  -- Either the connective does not follow, or what follows it was read one level deeper.
  · rintro ⟨⟨left, mid, hl, hj⟩, hrest⟩
    rcases readJoin_eq_ok hj with ⟨hnext, rfl, rfl⟩ | ⟨m, tail, r, read, rfl, hm, hread, hr, rfl⟩
    · obtain ⟨hp, hn⟩ := (hlower _ _).mp ⟨hl, hrest⟩
      exact ⟨⟨hp.consumes, hp.canonical, fun d hd ↦ Nat.le_of_succ_le (hp.binds d hd),
        stops_iff.mpr ⟨hp.stops, hnext⟩⟩, hn⟩
    · obtain ⟨hp, hn⟩ := (hlower _ _).mp ⟨hl, noParen_of_connective hm⟩
      obtain ⟨hq, hlt⟩ := (hd c tail r rest).mp ⟨read, hread, hr⟩
      refine ⟨⟨consumes_join_iff.mpr ⟨m, tail, hp.consumes, hm, hq.consumes⟩,
        canonical_join_iff.mpr ⟨hp.binds, hq.binds, hp.canonical, hq.canonical⟩, ?_, hq.stops⟩, ?_⟩
      · intro d hd
        cases hd
        exact Nat.le_refl _
      · rw [nesting]
        omega
  -- A tree with `c` at the root is split there; any other tree is a phrase of the lower stage.
  · rintro ⟨hp, hn⟩
    refine ⟨?_, hp.stops.noParen⟩
    by_cases hroot : t.root? = some c
    · obtain ⟨l, r, rfl⟩ := exists_join_of_root? hroot
      obtain ⟨m, mid, hm, hl, hr⟩ := hp.sides
      rw [nesting] at hn
      obtain ⟨read, rfl, hread⟩ := (hd c mid r rest).mpr ⟨hr, by omega⟩
      have hlow := (hlower l (m :: mid)).mpr ⟨hl, by omega⟩
      exact ⟨l, m :: mid, hlow.1, readJoin_of_next hm hread⟩
    · have hlow := (hlower t rest).mpr ⟨hp.succ hroot, hn⟩
      exact ⟨t, rest, hlow.1, readJoin_of_notNext (stops_iff.mp hp.stops).2⟩

/-! ## A level -/

/-- The stages of a level after the operand, down to the joins with a connective. -/
def joinStages (deeper : Option Reader) : Connective → Reading → Reading
  | .dot, operand => thenJoin deeper .dot operand
  | .and, operand => thenJoin deeper .and (thenJoin deeper .dot operand)
  | .or, operand => thenJoin deeper .or (thenJoin deeper .and (thenJoin deeper .dot operand))

/-- Refuses an opening parenthesis after a phrase. -/
def refuseParen (t : Tree) (ls : List Lexeme) : Except SyntaxError (Tree × List Lexeme) :=
  match ls with
  | ⟨start, .operator .leftParen⟩ :: _ =>
    .error (start.unexpected Operator.leftParen.symbol.toList)
  | _ => .ok (t, ls)

/-- The end of a level. -/
def endLevel : Reading → Reading
  | .ok (some t, rest) => certain (refuseParen t rest)
  | answer => answer

theorem endLevel_certain (answer : Except SyntaxError (Tree × List Lexeme)) :
    endLevel (certain answer) = certain (answer >>= fun p ↦ refuseParen p.1 p.2) := by
  rcases answer with e | ⟨t, rest⟩ <;> rfl

/-- A level consists of an operand and the stages down to its own connective. -/
theorem readLevel_eq_endLevel : readLevel ending deeper least ls =
    endLevel (joinStages deeper least (readOperand ending deeper least ls)) := by
  rw [readLevel]
  generalize readOperand ending deeper least ls = operand
  rcases operand with e | ⟨_ | t, mid⟩
  · cases least <;> rfl
  · cases least <;> rfl
  · change certain (readJoins deeper least t mid) =
      endLevel (joinStages deeper least (certain (.ok (t, mid))))
    cases least <;> simp only [joinStages, thenJoin_certain, endLevel_certain, bind_assoc] <;> rfl

theorem refuseParen_eq_ok_iff {u : Tree} :
    refuseParen u ls = .ok (t, rest) ↔ t = u ∧ rest = ls ∧ NoParen ls := by
  unfold refuseParen
  split
  · simp [NoParen]
  · rename_i hne
    have hparen : NoParen ls := by
      intro l hl hp
      obtain ⟨tail, rfl⟩ := List.head?_eq_some_iff.mp hl
      exact hne l.start tail (by rw [← hp])
    simp only [Except.ok.injEq, Prod.mk.injEq, hparen, and_true, eq_comm]

theorem endLevel_eq_ok_some_iff {answer : Reading} :
    endLevel answer = .ok (some t, rest) ↔ answer = .ok (some t, rest) ∧ NoParen rest := by
  rcases answer with e | ⟨_ | u, mid⟩
  · simp [endLevel]
  · simp [endLevel]
  · rw [endLevel, certain_eq_ok_some_iff, refuseParen_eq_ok_iff]
    constructor
    · rintro ⟨rfl, rfl, h⟩
      exact ⟨rfl, h⟩
    · rintro ⟨h, hrest⟩
      cases h
      exact ⟨rfl, rfl, hrest⟩

theorem joinStages_readsPhrases (hd : Covers deeper n) (c : Connective) :
    ReadsPhrases n c.strength ls
      (joinStages deeper c (readOperand ending deeper least ls)) := by
  have hoperand : ReadsPhrases n 3 ls (readOperand ending deeper least ls) :=
    fun t rest ↦ readOperand_eq_ok_some_iff hd
  cases c with
  | dot => exact thenJoin_step hd hoperand
  | and => exact thenJoin_step hd (thenJoin_step hd hoperand)
  | or => exact thenJoin_step hd (thenJoin_step hd (thenJoin_step hd hoperand))

theorem readLevel_eq_ok_some_iff (hd : Covers deeper n) :
    readLevel ending deeper least ls = .ok (some t, rest) ↔
      Phrase least.strength ls t rest ∧ t.nesting ≤ n := by
  rw [readLevel_eq_endLevel, endLevel_eq_ok_some_iff]
  exact joinStages_readsPhrases hd least t rest

/-- **All levels.** With `n` levels below it, a reader reads the phrases of nesting at most `n`. -/
theorem readLevels_eq_ok_some_iff : ∀ {n : Nat} {least : Connective} {ls rest : List Lexeme}
    {t : Tree}, readLevels ending n least ls = .ok (some t, rest) ↔
      Phrase least.strength ls t rest ∧ t.nesting ≤ n := by
  intro n
  induction n with
  | zero =>
    intro least ls rest t
    exact readLevel_eq_ok_some_iff covers_none
  | succ n ih =>
    intro least ls rest t
    refine readLevel_eq_ok_some_iff (n := n + 1) fun c ls t rest ↦ ?_
    simp only [Option.some.injEq, exists_eq_left', ih, Nat.lt_succ_iff]

/-! ## Whole texts -/

variable {text : List Char} {offset : Nat}

/-- At the end of a text any phrase stops. -/
theorem phrase_or_nil_iff :
    Phrase Connective.or.strength ls t [] ↔ ls.map Lexeme.token = t.tokens ∧ t.Canonical := by
  constructor
  · intro h
    exact ⟨consumes_nil_iff.mp h.consumes, h.canonical⟩
  · rintro ⟨htok, hcan⟩
    exact ⟨consumes_nil_iff.mpr htok, hcan, binds_zero t, fun l hl ↦ by cases hl⟩

/-- What is read is a phrase that takes up the whole text. -/
theorem exists_phrase_of_read (h : read text offset = .ok t) :
    ∃ ls, (Cursor.start text offset).Scans ls ∧ Phrase Connective.or.strength ls t [] ∧
      t.nesting ≤ maxLevels := by
  generalize hscan : (Cursor.start text offset).lexemes = scan
  obtain ⟨ls, last⟩ := scan
  rw [read, hscan] at h
  simp only at h
  split at h
  · cases h
  · cases h
  · cases h
  · rename_i u hu
    split at h
    · rename_i hend
      cases h
      obtain ⟨hp, hn⟩ := readLevels_eq_ok_some_iff.mp hu
      exact ⟨ls, Cursor.scans_iff.mpr (by rw [hscan]; exact ⟨rfl, hend⟩), hp, hn⟩
    · cases h

theorem read_of_phrase (hls : (Cursor.start text offset).Scans ls)
    (hp : Phrase Connective.or.strength ls t []) (hn : t.nesting ≤ maxLevels) :
    read text offset = .ok t := by
  obtain ⟨rfl, hend⟩ := Cursor.scans_iff.mp hls
  have hread : readLevels .finished maxLevels .or (Cursor.start text offset).lexemes.1 =
      .ok (some t, []) := readLevels_eq_ok_some_iff.mpr ⟨hp, hn⟩
  rw [read]
  simp only [hend, hread]

/-- **Exactly the grammar, and one tree for each text.** A text is read as a tree if and only if
it scans without an error to the tokens of the tree, the tree is canonical, and its nesting is
within the limit. -/
theorem read_eq_ok_iff {text : List Char} {offset : Nat} :
    read text offset = .ok t ↔ ∃ ls, (Cursor.start text offset).Scans ls ∧
      ls.map Lexeme.token = t.tokens ∧ t.Canonical ∧ t.nesting ≤ maxLevels := by
  constructor
  · intro h
    obtain ⟨ls, hls, hp, hn⟩ := exists_phrase_of_read h
    obtain ⟨htok, hcan⟩ := phrase_or_nil_iff.mp hp
    exact ⟨ls, hls, htok, hcan, hn⟩
  · rintro ⟨ls, hls, htok, hcan, hn⟩
    exact read_of_phrase hls (phrase_or_nil_iff.mpr ⟨htok, hcan⟩) hn

end Tree

end Interpolation
