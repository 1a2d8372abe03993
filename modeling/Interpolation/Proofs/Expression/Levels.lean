import Interpolation.Proofs.Expression.Fault
import Interpolation.Proofs.Expression.Height

/-!
# Where too deep an expression is refused

Each token of an expression stands on a level. Parentheses open one for what is between them, a
connective opens one for its right side, while its left side stays where it is. If there are more
levels than the reader admits, some token on the last of them would open another one, and the first
such token in reading order is what the reader blames.

## Why the first

The reader is refused a level only at a token on the last one, and then everything before this token
was read. So a tree is followed in reading order: what lies before the part that is too deep opens
no level below the last one, hence holds no token to blame (`find?_levels_eq_none`), and the reader
passes it. What is to blame in a part is to blame in the whole, wherever the part lies.
-/

namespace Interpolation

open Text

/-- The tokens that open a level: connectives for their right side, parentheses for their
content. -/
def Token.opens : Token → Bool
  | .operator (.connective _) => true
  | .operator .leftParen => true
  | _ => false

namespace Tree

/-- The levels on which the tokens of a tree stand, in reading order, if the tree itself stands on
level `k`. -/
def levels (k : Nat) : Tree → List Nat
  | name _ => [k]
  | quoted _ => [k]
  | group t => k :: (t.levels (k + 1) ++ [k])
  | join _ l r => l.levels k ++ k :: r.levels (k + 1)

theorem length_levels (t : Tree) (k : Nat) : (t.levels k).length = t.tokens.length := by
  induction t generalizing k with
  | name s => rfl
  | quoted s => rfl
  | group t ih => simp [levels, tokens, ih]
  | join c l r ihl ihr => simp [levels, tokens, ihl, ihr]

/-! ## The token to blame -/

/-- A lexeme on level `top` that opens another one. -/
def opensAt (top : Nat) (p : Lexeme × Nat) : Bool := p.1.token.opens && p.2 = top

/-- In a tree on level `k` whose tokens are in front of `ls`, the lexeme `l` is the first one on
level `top` that opens another. -/
def Blamed (top k : Nat) (t : Tree) (ls : List Lexeme) (l : Lexeme) : Prop :=
  (ls.zip (t.levels k)).find? (opensAt top) = some (l, top)

variable {top k n : Nat} {ls mid rest : List Lexeme} {t u l r : Tree} {m x : Lexeme}

theorem zip_levels_append (h : Consumes ls t rest) (more : List Nat) :
    ls.zip (t.levels k ++ more) = ls.zip (t.levels k) ++ rest.zip more := by
  obtain ⟨taken, rfl, ht⟩ := h
  have hlen : taken.length = (t.levels k).length := by
    rw [length_levels, ← ht, List.length_map]
  have hzip : (taken ++ rest).zip (t.levels k) = taken.zip (t.levels k) := by
    calc (taken ++ rest).zip (t.levels k)
      _ = (taken ++ rest).zip (t.levels k ++ []) := by rw [List.append_nil]
      _ = taken.zip (t.levels k) := by
        rw [List.zip_append hlen, List.zip_nil_right, List.append_nil]
  rw [List.zip_append hlen, hzip]

theorem zip_levels_group (h : Consumes mid t (x :: rest)) :
    (m :: mid).zip ((group t).levels k) = (m, k) :: (mid.zip (t.levels (k + 1)) ++ [(x, k)]) := by
  rw [levels, List.zip_cons_cons, zip_levels_append h, List.zip_cons_cons, List.zip_nil_right]

theorem zip_levels_join {c : Connective} (h : Consumes ls l (m :: mid)) :
    ls.zip ((join c l r).levels k) =
      ls.zip (l.levels k) ++ (m, k) :: mid.zip (r.levels (k + 1)) := by
  rw [levels, zip_levels_append h, List.zip_cons_cons]

theorem not_opensAt (hk : k < top) : ¬ opensAt top (m, k) := by
  simp [opensAt, Nat.ne_of_lt hk]

theorem opensAt_leftParen (h : m.token = .operator .leftParen) : opensAt top (m, top) := by
  simp [opensAt, h, Token.opens]

theorem opensAt_connective {c : Connective} (h : m.token = .operator (.connective c)) :
    opensAt top (m, top) := by
  simp [opensAt, h, Token.opens]

/-- A tree without a level below `top` has no token there that opens one. -/
theorem find?_levels_eq_none (h : Consumes ls t rest) (hn : k + t.nesting ≤ top) :
    (ls.zip (t.levels k)).find? (opensAt top) = none := by
  induction t generalizing k ls rest with
  | name s =>
    obtain ⟨m, rfl, hm⟩ := (consumes_singleton_iff rfl).mp h
    simp [levels, opensAt, hm, Token.opens]
  | quoted s =>
    obtain ⟨m, rfl, hm⟩ := (consumes_singleton_iff rfl).mp h
    simp [levels, opensAt, hm, Token.opens]
  | group t ih =>
    obtain ⟨m, mid, m', rfl, hm, ht, hm'⟩ := consumes_group_iff.mp h
    rw [nesting] at hn
    have hinner := ih (k := k + 1) ht (by omega)
    have hopens : ¬ opensAt top (m, k) := not_opensAt (by omega)
    have hcloses : ¬ opensAt top (m', k) := by
      simp [opensAt, hm', Token.opens]
    rw [zip_levels_group ht, List.find?_cons_of_neg hopens, List.find?_append, hinner,
      Option.none_or, List.find?_cons_of_neg hcloses, List.find?_nil]
  | join c l r ihl ihr =>
    obtain ⟨m, mid, hl, hm, hr⟩ := consumes_join_iff.mp h
    rw [nesting] at hn
    have hleft := ihl (k := k) hl (by omega)
    have hright := ihr (k := k + 1) hr (by omega)
    have hopens : ¬ opensAt top (m, k) := not_opensAt (by omega)
    rw [zip_levels_join hl, List.find?_append, hleft, Option.none_or,
      List.find?_cons_of_neg hopens, hright]

/-! What is to blame in a part is to blame in the whole, and parentheses and connectives on level
`top` are to blame themselves. -/

theorem blamed_parenthesis (hm : m.token = .operator .leftParen) (h : Consumes mid t (x :: rest)) :
    Blamed top top (group t) (m :: mid) m := by
  rw [Blamed, zip_levels_group h]
  exact List.find?_cons_of_pos (opensAt_leftParen hm)

theorem Blamed.content {y : Lexeme} (h : Consumes mid t (x :: rest)) (hk : k < top)
    (hy : Blamed top (k + 1) t mid y) : Blamed top k (group t) (m :: mid) y := by
  rw [Blamed] at hy ⊢
  rw [zip_levels_group h, List.find?_cons_of_neg (not_opensAt hk), List.find?_append, hy,
    Option.some_or]

theorem Blamed.left {c : Connective} (h : Consumes ls l (m :: mid)) (hx : Blamed top k l ls x) :
    Blamed top k (join c l r) ls x := by
  rw [Blamed] at hx ⊢
  rw [zip_levels_join h, List.find?_append, hx, Option.some_or]

theorem blamed_connective {c : Connective} (hm : m.token = .operator (.connective c))
    (h : Consumes ls l (m :: mid)) (hl : top + l.nesting ≤ top) :
    Blamed top top (join c l r) ls m := by
  rw [Blamed, zip_levels_join h, List.find?_append, find?_levels_eq_none h hl, Option.none_or]
  exact List.find?_cons_of_pos (opensAt_connective hm)

theorem Blamed.right {c : Connective} (h : Consumes ls l (m :: mid)) (hl : k + l.nesting ≤ top)
    (hk : k < top) (hx : Blamed top (k + 1) r mid x) : Blamed top k (join c l r) ls x := by
  rw [Blamed] at hx ⊢
  rw [zip_levels_join h, List.find?_append, find?_levels_eq_none h hl, Option.none_or,
    List.find?_cons_of_neg (not_opensAt hk), hx]

/-! ## The stages of a level -/

/-- The answer blames the lexeme that is to blame in the tree. -/
def Blames (top k : Nat) (t : Tree) (ls : List Lexeme) (answer : Reading) : Prop :=
  ∃ x, Blamed top k t ls x ∧ answer = .error (x.start.unexpected x.token.text)

/-- The reader below level `k` blames a lexeme in each phrase that is too deep for it. It is missing
only if `k` is the last level. -/
def Limits (top k : Nat) : Option Reader → Prop
  | none => k = top
  | some read => k < top ∧ ∀ (c : Connective) (ls : List Lexeme) (t : Tree) (rest : List Lexeme),
      Phrase c.strength ls t rest → top < k + 1 + t.nesting → Blames top (k + 1) t ls (read c ls)

/-- A stage that blames a lexeme in each phrase of a strength that is too deep. -/
def BlamesPhrases (top k strength : Nat) (ls : List Lexeme) (stage : Reading) : Prop :=
  ∀ t rest, Phrase strength ls t rest → top < k + t.nesting → Blames top k t ls stage

variable {ending : Ending} {deeper : Option Reader} {least : Connective}

theorem Limits.le (hd : Limits top k deeper) : k ≤ top := by
  obtain _ | read := deeper
  · exact Nat.le_of_eq hd
  · exact Nat.le_of_lt hd.1

theorem readOperand_blames (hd : Limits top k deeper) :
    BlamesPhrases top k 3 ls (readOperand ending deeper least ls) := by
  intro t rest hp hdeep
  obtain ⟨hc, hcan, hroot, -⟩ := phrase_three_iff.mp hp
  have hk : k ≤ top := hd.le
  cases t with
  | name s => exact absurd hdeep (Nat.not_lt.mpr hk)
  | quoted s => exact absurd hdeep (Nat.not_lt.mpr hk)
  | join c l r => cases hroot
  | group u =>
    obtain ⟨⟨start, _⟩, mid, ⟨start', _⟩, rfl, rfl, hu, rfl⟩ := consumes_group_iff.mp hc
    obtain _ | read := deeper
    · obtain rfl : k = top := hd
      exact ⟨_, blamed_parenthesis rfl hu, rfl⟩
    · obtain ⟨hlt, hread⟩ := hd
      have hphrase : Phrase 0 mid u (⟨start', .operator .rightParen⟩ :: rest) :=
        ⟨hu, hcan, binds_zero u, stops_rightParen rfl⟩
      rw [nesting] at hdeep
      obtain ⟨x, hx, hanswer⟩ := hread .or mid u _ hphrase (by omega)
      refine ⟨x, hx.content hu hlt, ?_⟩
      simp only [readOperand, hanswer]

/-- **The step from one strength to the next.** If the left side of a join is too deep, the lower
stage blames a lexeme in it; else the left side is read, and the right side is too deep or is not
even begun. -/
theorem thenJoin_blames {c : Connective} {lower : Reading} (hn : k + n = top)
    (hd : Limits top k deeper) (hread : ReadsPhrases n (c.strength + 1) ls lower)
    (hlower : BlamesPhrases top k (c.strength + 1) ls lower) :
    BlamesPhrases top k c.strength ls (thenJoin deeper c lower) := by
  intro t rest hp hdeep
  by_cases hroot : t.root? = some c
  · obtain ⟨l, r, rfl⟩ := exists_join_of_root? hroot
    obtain ⟨m, mid, hm, hl, hr⟩ := hp.sides
    by_cases hleft : top < k + l.nesting
    · obtain ⟨x, hx, rfl⟩ := hlower l _ hl hleft
      exact ⟨x, hx.left hl.consumes, rfl⟩
    · obtain ⟨rfl, -⟩ := (hread l (m :: mid)).mpr ⟨hl, by omega⟩
      obtain _ | read := deeper
      · obtain rfl : k = top := hd
        refine ⟨m, blamed_connective hm hl.consumes (by omega), ?_⟩
        rw [thenJoin, readJoin, if_pos hm, hm]
        rfl
      · obtain ⟨hlt, hdeeper⟩ := hd
        rw [nesting] at hdeep
        obtain ⟨x, hx, hanswer⟩ := hdeeper c mid r rest hr (by omega)
        refine ⟨x, hx.right hl.consumes (by omega) hlt, ?_⟩
        rw [thenJoin, readJoin, if_pos hm]
        simp only [hanswer, certain]
  · obtain ⟨x, hx, rfl⟩ := hlower t rest (hp.succ hroot) hdeep
    exact ⟨x, hx, rfl⟩

theorem joinStages_blames (hn : k + n = top) (hc : Covers deeper n) (hd : Limits top k deeper)
    (c : Connective) : BlamesPhrases top k c.strength ls
      (joinStages deeper c (readOperand ending deeper least ls)) := by
  have hdot : BlamesPhrases top k Connective.dot.strength ls
      (joinStages deeper .dot (readOperand ending deeper least ls)) :=
    thenJoin_blames hn hd (fun t rest ↦ readOperand_eq_ok_some_iff hc) (readOperand_blames hd)
  have hand : BlamesPhrases top k Connective.and.strength ls
      (joinStages deeper .and (readOperand ending deeper least ls)) :=
    thenJoin_blames hn hd (joinStages_readsPhrases hc .dot) hdot
  cases c with
  | dot => exact hdot
  | and => exact hand
  | or => exact thenJoin_blames hn hd (joinStages_readsPhrases hc .and) hand

theorem readLevel_blames (hn : k + n = top) (hc : Covers deeper n) (hd : Limits top k deeper) :
    BlamesPhrases top k least.strength ls (readLevel ending deeper least ls) := by
  intro t rest hp hdeep
  obtain ⟨x, hx, hanswer⟩ := joinStages_blames hn hc hd least t rest hp hdeep
  refine ⟨x, hx, ?_⟩
  rw [readLevel_eq_endLevel, hanswer]
  rfl

/-- **All levels.** On level `k`, with `n` levels below it, a reader blames a lexeme in each phrase
that has a level below `k + n`. -/
theorem readLevels_blames : ∀ {n k : Nat} {least : Connective} {ls : List Lexeme},
    k + n = top → BlamesPhrases top k least.strength ls (readLevels ending n least ls) := by
  intro n
  induction n with
  | zero =>
    intro k least ls hn
    exact readLevel_blames hn covers_none hn
  | succ n ih =>
    intro k least ls hn
    refine readLevel_blames hn (covers_readLevels n) ⟨by omega, fun c ls t rest ↦ ?_⟩
    exact ih (by omega) t rest

/-! ## Whole texts -/

variable {text : List Char} {offset : Nat}

theorem exists_operator_of_opensAt (h : opensAt top (x, k)) : ∃ op, x.token = .operator op := by
  obtain ⟨start, token⟩ := x
  cases token with
  | name s => cases h
  | quoted s => cases h
  | operator op => exact ⟨op, rfl⟩

/-- A lexeme begins at its position, in bytes of the surroundings of the text. -/
theorem exists_text_around {last : Cursor}
    (hscan : (Cursor.start text offset).lexemes = (ls, last)) (hx : x ∈ ls) :
    ∃ before after, text = before ++ x.token.text ++ after ∧
      x.position = offset + byteLength before := by
  obtain ⟨-, after, hafter⟩ := Cursor.spelled_of_lexemes hscan x hx
  obtain ⟨taken, more, rfl⟩ := List.append_of_mem hx
  obtain ⟨-, before, htext, hstart⟩ := Cursor.lexes_front hscan
  rw [Cursor.front] at htext hstart
  refine ⟨before, after, ?_, ?_⟩
  · rw [List.append_assoc, hafter]
    exact htext
  · rw [Lexeme.position, ← hstart]
    simp [Cursor.absolute, Cursor.past, Cursor.start]

/-- **Too deep an expression is refused at the first token that opens a forbidden level.** If a text
spells a tree that is nested deeper than the reader admits, then among the tokens on the last level
there is one that opens another level, and the text is refused at the first of them: the error names
its symbol and the byte at which it stands. -/
theorem read_eq_error_of_deep (hls : (Cursor.start text offset).Scans ls)
    (htok : ls.map Lexeme.token = t.tokens) (hcan : t.Canonical) (hdeep : maxLevels < t.nesting) :
    ∃ l op, (ls.zip (t.levels 0)).find? (opensAt maxLevels) = some (l, maxLevels) ∧
      l.token = .operator op ∧
      read text offset = .error (.unexpectedToken op.symbol l.position) ∧
      ∃ before after, text = before ++ op.symbol.toList ++ after ∧
        l.position = offset + byteLength before := by
  obtain ⟨rfl, hend⟩ := Cursor.scans_iff.mp hls
  have hread : BlamesPhrases maxLevels 0 Connective.or.strength
      (Cursor.start text offset).lexemes.1
      (readLevels .finished maxLevels .or (Cursor.start text offset).lexemes.1) :=
    readLevels_blames (Nat.zero_add maxLevels)
  obtain ⟨l, hl, hanswer⟩ := hread t [] (phrase_or_nil_iff.mpr ⟨htok, hcan⟩) (by omega)
  have hmem : l ∈ (Cursor.start text offset).lexemes.1 :=
    (List.of_mem_zip (List.mem_of_find?_eq_some hl)).1
  obtain ⟨op, hop⟩ := exists_operator_of_opensAt (List.find?_some hl)
  obtain ⟨before, after, htext, hposition⟩ := exists_text_around rfl hmem
  rw [hop] at htext hanswer
  refine ⟨l, op, hl, hop, ?_, before, after, htext, hposition⟩
  rw [read]
  simp only [hend, hanswer, Cursor.unexpected, Token.text, String.ofList_toList, Lexeme.position]

/-- A tree with one level more than the reader admits, written behind five other bytes. -/
theorem read_eq_error_of_deep_tower : ∃ ls,
    (Cursor.start (Token.spaced (tower 257).tokens) 5).Scans ls ∧
      ls.map Lexeme.token = (tower 257).tokens ∧ (tower 257).Canonical ∧
      maxLevels < (tower 257).nesting ∧
      ∃ l op, (ls.zip ((tower 257).levels 0)).find? (opensAt maxLevels) = some (l, maxLevels) ∧
        l.token = .operator op ∧
        read (Token.spaced (tower 257).tokens) 5 =
          .error (.unexpectedToken op.symbol l.position) ∧
        ∃ before after, Token.spaced (tower 257).tokens = before ++ op.symbol.toList ++ after ∧
          l.position = 5 + byteLength before := by
  have hlexes : Lexes (Cursor.start (Token.spaced (tower 257).tokens) 5).rest
      (tower 257).tokens [] := Token.lexes_spaced (valid_of_mem_tokens_tower 257)
  obtain ⟨ls, hls, htok⟩ := Cursor.exists_scans_of_lexes hlexes
  have hcan : (tower 257).Canonical := canonical_tower 257
  have hdeep : maxLevels < (tower 257).nesting := by
    rw [nesting_tower]
    decide
  exact ⟨ls, hls, htok, hcan, hdeep, read_eq_error_of_deep hls htok hcan hdeep⟩

end Tree

end Interpolation
