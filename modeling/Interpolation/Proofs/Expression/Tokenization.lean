import Interpolation.Proofs.Expression.Lexing
import Interpolation.Proofs.Text.Utf8

/-!
# The tokens of a text

Asking for the next token again and again comes to an end: there is none left, or the scan fails.
What is found on the way is described here on the text alone. The tokens cover it from left to
right, each of them as much as it can, and nothing but blanks is left out. If the scan fails, then
at the first text behind the blanks that no token begins, and `Stuck` lists the three kinds of such
texts with the error that each of them gives.

## Quotes

Inside a quoted text every quote is written twice, and pairs are read from left to right. So the
quote that closes the text is the first one that does not begin a pair: what stands before it is
`Paired`, and no quote follows it directly. The text before that quote is the written form of
exactly one text, hence the description agrees with the way in which quotes are looked for.
-/

namespace Interpolation

open Text

/-! ## The closing quote -/

/-- Every quote belongs to a pair of quotes, pairs being read from left to right. -/
inductive Paired : List Char → Prop where
  | nil : Paired []
  | other {c : Char} {cs : List Char} (hc : c ≠ '\'') (h : Paired cs) : Paired (c :: cs)
  | pair {cs : List Char} (h : Paired cs) : Paired ('\'' :: '\'' :: cs)

/-- The first quote of a text that does not begin a pair stands between `inside` and `after`. -/
structure Closes (cs inside after : List Char) : Prop where
  eq : cs = inside ++ '\'' :: after
  paired : Paired inside
  single : ∀ c ∈ after.head?, c ≠ '\''

section Quotes

variable {cs inside after : List Char}

theorem paired_doubleQuotes (s : List Char) : Paired (doubleQuotes s) := by
  induction s with
  | nil => exact .nil
  | cons c s ih =>
    rw [doubleQuotes]
    by_cases hc : c = '\''
    · rw [if_pos hc]
      exact .pair ih
    · rw [if_neg hc]
      exact .other hc ih

theorem exists_doubleQuotes (h : Paired inside) : ∃ s, inside = doubleQuotes s := by
  induction h with
  | nil => exact ⟨[], rfl⟩
  | @other c cs hc _ ih =>
    obtain ⟨s, rfl⟩ := ih
    exact ⟨c :: s, by rw [doubleQuotes, if_neg hc]⟩
  | @pair cs _ ih =>
    obtain ⟨s, rfl⟩ := ih
    exact ⟨'\'' :: s, by rw [doubleQuotes, if_pos rfl]⟩

/-- **The closing quote** is the one that the scan finds. -/
theorem closes_iff :
    Closes cs inside after ↔ ∃ s, inside = doubleQuotes s ∧ closeQuote? cs = some (s, after) := by
  constructor
  · rintro ⟨rfl, hpaired, hsingle⟩
    obtain ⟨s, rfl⟩ := exists_doubleQuotes hpaired
    exact ⟨s, rfl, closeQuote?_eq_some_iff.mpr ⟨rfl, hsingle⟩⟩
  · rintro ⟨s, rfl, h⟩
    obtain ⟨hcs, hsingle⟩ := closeQuote?_eq_some_iff.mp h
    exact ⟨hcs, paired_doubleQuotes s, hsingle⟩

theorem closeQuote?_eq_none_iff :
    closeQuote? cs = none ↔ ∀ inside after, ¬ Closes cs inside after := by
  constructor
  · intro h inside after hcloses
    obtain ⟨s, -, hs⟩ := closes_iff.mp hcloses
    rw [h] at hs
    cases hs
  · intro h
    rw [Option.eq_none_iff_forall_ne_some]
    rintro ⟨s, after⟩ hs
    exact h _ _ (closes_iff.mpr ⟨s, rfl, hs⟩)

end Quotes

/-! ## What a token covers -/

/-- A token covers `raw` where `after` follows. A name is a whole run of characters of names; a
quoted text goes up to its closing quote, and its value has each pair of quotes once; an operator is
its symbol. -/
inductive Munches : Token → List Char → List Char → Prop where
  | name {run after : List Char} (hne : run ≠ []) (hrun : ∀ x ∈ run, isNameChar x)
      (hafter : ∀ x ∈ after.head?, ¬ isNameChar x) (hlast : run.getLast? ≠ some '-') :
      Munches (.name (String.ofList run)) run after
  | quoted {s : String} {inside after : List Char} (hvalue : inside = doubleQuotes s.toList)
      (h : Closes (inside ++ '\'' :: after) inside after) :
      Munches (.quoted s) ('\'' :: (inside ++ ['\''])) after
  | operator (op : Operator) (after : List Char) : Munches (.operator op) op.symbol.toList after

/-- No token begins the text, which stands at a byte: it begins with a run of characters of names
that ends in a hyphen, with a quote that is never closed, or with a character that begins no token
at all. -/
inductive Stuck (position : Nat) : List Char → SyntaxError → Prop where
  | hyphen {run after : List Char} (hrun : ∀ x ∈ run, isNameChar x)
      (hafter : ∀ x ∈ after.head?, ¬ isNameChar x) :
      Stuck position (run ++ '-' :: after) (.unexpectedToken "-" (position + byteLength run))
  | unclosed {cs : List Char} (h : ∀ inside after, ¬ Closes cs inside after) :
      Stuck position ('\'' :: cs) (.unexpectedToken (String.ofList ('\'' :: cs)) position)
  | stray {c : Char} {cs : List Char} (hquote : c ≠ '\'') (hname : ¬ isNameChar c)
      (hop : ∀ op : Operator, ¬ op.symbol.toList <+: c :: cs) :
      Stuck position (c :: cs) (.unexpectedToken (String.singleton c) position)

namespace Munches

variable {tok : Token} {raw after : List Char}

theorem iff_spelled :
    Munches tok raw after ↔ tok.Valid ∧ tok.EndsBefore after ∧ tok.text = raw := by
  constructor
  · intro h
    cases h with
    | name hne hrun hafter hlast =>
      rw [Token.Valid, Token.text, String.toList_ofList]
      exact ⟨⟨hne, hrun, hlast⟩, hafter, rfl⟩
    | quoted hvalue h =>
      rw [hvalue]
      exact ⟨trivial, h.single, rfl⟩
    | operator op after => exact ⟨trivial, trivial, rfl⟩
  · rintro ⟨hvalid, hends, rfl⟩
    cases tok with
    | name s =>
      obtain ⟨hne, hrun, hlast⟩ := hvalid
      have hmunches := Munches.name hne hrun hends hlast
      rwa [String.ofList_toList] at hmunches
    | quoted s => exact .quoted rfl ⟨rfl, paired_doubleQuotes _, hends⟩
    | operator op => exact .operator op after

theorem raw_ne_nil (h : Munches tok raw after) : raw ≠ [] := by
  obtain ⟨hvalid, -, rfl⟩ := iff_spelled.mp h
  exact Token.text_ne_nil hvalid

end Munches

/-! ## Scanning to the end -/

/-- The error of a scan that failed. -/
def Ending.error? : Ending → Option SyntaxError
  | finished => none
  | failed _ e => some e

namespace Cursor

variable {c d : Cursor} {l : Lexeme} {ls : List Lexeme} {e : SyntaxError}

theorem absolute_past (c : Cursor) (taken rest : List Char) :
    (c.past taken rest).absolute = c.absolute + byteLength taken := by
  rw [absolute, absolute, past, Nat.add_assoc]

theorem ofText?_eq_none_iff {cs : List Char} :
    Operator.ofText? cs = none ↔ ∀ op : Operator, ¬ op.symbol.toList <+: cs := by
  constructor
  · rintro h op ⟨rest, rfl⟩
    rw [Operator.ofText?_symbol] at h
    cases h
  · intro h
    rw [Option.eq_none_iff_forall_ne_some]
    rintro ⟨op, rest⟩ ho
    exact h op ⟨rest, (Operator.ofText?_eq_some_iff.mp ho).symm⟩

/-- A stray character is blamed by its own. -/
theorem unexpectedHere_of_rest_eq {x : Char} {xs : List Char} (h : c.rest = x :: xs) :
    c.unexpectedHere = .unexpectedToken (String.singleton x) c.absolute := by
  rw [unexpectedHere, unexpected, h, String.singleton_eq_ofList]
  rfl

theorem stuck_of_next_eq_error (h : c.next = (.error e, d)) :
    Stuck c.skipBlanks.absolute c.skipBlanks.rest e := by
  have hrest : c.skipBlanks.rest ≠ [] := by
    intro hnil
    rw [next_of_rest_eq_nil hnil] at h
    cases h
  rw [next_of_rest_ne_nil hrest] at h
  split at h
  · rename_i hquoted
    split at h
    · rename_i hname
      obtain ⟨hop, rfl, -⟩ := operator_eq_error_iff.mp h
      obtain ⟨x, xs, hx⟩ := List.exists_cons_of_ne_nil hrest
      rw [unexpectedHere_of_rest_eq hx]
      have hquote := (quoted_eq_none_iff.mp hquoted).1
      have hnot := (name_eq_none_iff.mp hname).1
      rw [hx] at hop hquote hnot ⊢
      exact .stray (hquote x rfl) (hnot x rfl) (ofText?_eq_none_iff.mp hop)
    · obtain ⟨run, after, hrun, hall, hafter, rfl, rfl⟩ := name_eq_error_iff.mp h
      rw [hrun, unexpected, absolute_past]
      exact .hyphen hall hafter
  · obtain ⟨inside, hinside, hnone, rfl, -⟩ := quoted_eq_error_iff.mp h
    rw [unexpected, hinside]
    exact .unclosed (closeQuote?_eq_none_iff.mp hnone)

/-- A run that ends in a hyphen is tried as a name, since it begins with no quote. -/
theorem name_of_hyphen {run after : List Char} (hrest : c.rest = run ++ '-' :: after)
    (hrun : ∀ x ∈ run, isNameChar x) (hafter : ∀ x ∈ after.head?, ¬ isNameChar x) :
    c.quoted = (.ok none, c) ∧ c.name =
      (.error (.unexpectedToken "-" (c.absolute + byteLength run)),
        c.past run ('-' :: after)) := by
  constructor
  · refine quoted_eq_none_iff.mpr ⟨fun q hq ↦ ?_, rfl⟩
    rw [hrest] at hq
    cases run with
    | nil =>
      cases hq
      decide
    | cons x run =>
      cases hq
      exact Token.isNameChar_ne_quote (hrun _ List.mem_cons_self)
  · refine name_eq_error_iff.mpr ⟨run, after, hrest, hrun, hafter, rfl, ?_⟩
    rw [unexpected, absolute_past]

theorem quoted_of_unclosed {cs : List Char} (hrest : c.rest = '\'' :: cs)
    (h : ∀ inside after, ¬ Closes cs inside after) :
    c.quoted = (.error (.unexpectedToken (String.ofList ('\'' :: cs)) c.absolute),
      c.past c.rest []) :=
  quoted_eq_error_iff.mpr
    ⟨cs, hrest, closeQuote?_eq_none_iff.mpr h, by rw [unexpected, hrest], rfl⟩

/-- A character that begins no token is tried as an operator at last. -/
theorem operator_of_stray {x : Char} {xs : List Char} (hrest : c.rest = x :: xs)
    (hquote : x ≠ '\'') (hname : ¬ isNameChar x)
    (hop : ∀ op : Operator, ¬ op.symbol.toList <+: x :: xs) :
    c.quoted = (.ok none, c) ∧ c.name = (.ok none, c) ∧
      c.operator = (.error (.unexpectedToken (String.singleton x) c.absolute), c) := by
  have hhead : c.rest.head? = some x := by rw [hrest, List.head?_cons]
  refine ⟨quoted_eq_none_iff.mpr ⟨fun q hq ↦ ?_, rfl⟩, name_eq_none_iff.mpr ⟨fun y hy ↦ ?_, rfl⟩,
    operator_eq_error_iff.mpr ⟨?_, unexpectedHere_of_rest_eq hrest, rfl⟩⟩
  · rw [hhead] at hq
    exact Option.some.inj hq ▸ hquote
  · rw [hhead] at hy
    exact Option.some.inj hy ▸ hname
  · rw [hrest]
    exact ofText?_eq_none_iff.mpr hop

theorem exists_next_eq_error_of_stuck (h : Stuck c.skipBlanks.absolute c.skipBlanks.rest e) :
    ∃ d, c.next = (.error e, d) := by
  generalize hrest : c.skipBlanks.rest = rest at h
  have hne : c.skipBlanks.rest ≠ [] := by
    rw [hrest]
    cases h <;> simp
  rw [next_of_rest_ne_nil hne]
  cases h with
  | hyphen hrun hafter =>
    obtain ⟨hquoted, hname⟩ := name_of_hyphen hrest hrun hafter
    simp only [hquoted, hname]
    exact ⟨_, rfl⟩
  | unclosed h =>
    simp only [quoted_of_unclosed hrest h]
    exact ⟨_, rfl⟩
  | stray hquote hname hop =>
    obtain ⟨hquoted, hnone, hoperator⟩ := operator_of_stray hrest hquote hname hop
    simp only [hquoted, hnone, hoperator]
    exact ⟨_, rfl⟩

/-- Asking for the next token until there is none, or until there is an error. -/
inductive Runs : Cursor → List Lexeme → Option SyntaxError → Prop where
  | finished {c d : Cursor} (h : c.next = (.ok none, d)) : Runs c [] none
  | failed {c d : Cursor} {e : SyntaxError} (h : c.next = (.error e, d)) : Runs c [] (some e)
  | token {c d : Cursor} {l : Lexeme} {ls : List Lexeme} {out : Option SyntaxError}
      (h : c.next = (.ok (some l), d)) (hr : Runs d ls out) : Runs c (l :: ls) out

theorem Runs.lexemes_eq {out : Option SyntaxError} (h : c.Runs ls out) :
    c.lexemes.1 = ls ∧ c.lexemes.2.ending.error? = out := by
  induction h with
  | finished h =>
    rw [lexemes_of_next_ne_some (by simp [h]), ending, h]
    exact ⟨rfl, rfl⟩
  | failed h =>
    rw [lexemes_of_next_ne_some (by simp [h]), ending, h]
    exact ⟨rfl, rfl⟩
  | token h _ ih =>
    rw [lexemes_of_next_some h]
    exact ⟨by rw [ih.1], ih.2⟩

/-- **The asking ends.** Each token takes some of the text, and the text is finite. -/
theorem runs_lexemes (c : Cursor) : c.Runs c.lexemes.1 c.lexemes.2.ending.error? := by
  fun_induction lexemes c with
  | case1 c l d hnext ls last heq ih =>
    rw [heq] at ih
    exact .token hnext ih
  | case2 c hnone =>
    rw [ending]
    rcases hnext : c.next with ⟨e | _ | l, d⟩
    · exact .failed hnext
    · exact .finished hnext
    · exact absurd hnext (hnone l d)

theorem runs_iff {out : Option SyntaxError} :
    c.Runs ls out ↔ ls = c.lexemes.1 ∧ out = c.lexemes.2.ending.error? := by
  constructor
  · intro h
    obtain ⟨rfl, rfl⟩ := h.lexemes_eq
    exact ⟨rfl, rfl⟩
  · rintro ⟨rfl, rfl⟩
    exact c.runs_lexemes

/-- The cursor with `rest` in front of it and `before` behind it. -/
def behind (offset : Nat) (before rest : List Char) : Cursor := ⟨offset, byteLength before, rest, 0⟩

theorem past_behind (offset : Nat) (before taken cs rest : List Char) :
    (behind offset before cs).past taken rest = behind offset (before ++ taken) rest := by
  simp [behind, past]

end Cursor

/-! ## The lexemes in the text -/

/-- The lexemes stand in a text one behind another, with blanks in front of each, and each token
covers as much as it can. Behind the last of them and some blanks, the text is over or no token
begins. `before` is what stands before the text. -/
inductive Tiles (offset : Nat) :
    List Char → List Char → List Lexeme → Option SyntaxError → Prop where
  | finished {before blanks : List Char} (hblanks : ∀ x ∈ blanks, isBlank x) :
      Tiles offset before blanks [] none
  | stuck {before blanks rest : List Char} {e : SyntaxError} (hblanks : ∀ x ∈ blanks, isBlank x)
      (hrest : ∀ x ∈ rest.head?, ¬ isBlank x)
      (h : Stuck (offset + byteLength (before ++ blanks)) rest e) :
      Tiles offset before (blanks ++ rest) [] (some e)
  | token {before blanks raw after : List Char} {tok : Token} {ls : List Lexeme}
      {out : Option SyntaxError} (hblanks : ∀ x ∈ blanks, isBlank x) (hraw : Munches tok raw after)
      (h : Tiles offset (before ++ blanks ++ raw) after ls out) :
      Tiles offset before (blanks ++ (raw ++ after))
        (⟨.behind offset (before ++ blanks) (raw ++ after), tok⟩ :: ls) out

namespace Tiles

variable {offset : Nat} {before text : List Char} {ls : List Lexeme} {out : Option SyntaxError}

theorem position_behind (offset : Nat) (before rest : List Char) (tok : Token) :
    Lexeme.position ⟨.behind offset before rest, tok⟩ = offset + byteLength before := rfl

theorem le_position (h : Tiles offset before text ls out) :
    ∀ l ∈ ls, offset + byteLength before ≤ l.position := by
  induction h with
  | finished => simp
  | stuck => simp
  | token _ _ _ ih =>
    intro l hl
    rcases List.mem_cons.mp hl with rfl | hl
    · rw [position_behind, byteLength_append]
      omega
    · have hbehind := ih l hl
      simp only [byteLength_append] at hbehind
      omega

/-- Each lexeme stands behind what the one before it covers. -/
theorem pairwise_position (h : Tiles offset before text ls out) :
    (ls.map Lexeme.position).Pairwise (· < ·) := by
  induction h with
  | finished => exact .nil
  | stuck => exact .nil
  | @token before blanks raw after tok ls out _ hraw htail ih =>
    refine List.pairwise_cons.mpr ⟨fun position hmem ↦ ?_, ih⟩
    obtain ⟨l, hl, rfl⟩ := List.mem_map.mp hmem
    have hbehind := htail.le_position l hl
    have hpos := byteLength_pos hraw.raw_ne_nil
    rw [byteLength_append] at hbehind
    rw [position_behind]
    omega

end Tiles

namespace Cursor

variable {c : Cursor} {offset : Nat} {before blanks text rest : List Char} {ls : List Lexeme}
  {out : Option SyntaxError}

/-- The blanks at a cursor, all of them. -/
theorem exists_skipBlanks_behind (offset : Nat) (before text : List Char) :
    ∃ blanks rest, text = blanks ++ rest ∧ (∀ x ∈ blanks, isBlank x) ∧
      (∀ x ∈ rest.head?, ¬ isBlank x) ∧
      (behind offset before text).skipBlanks = behind offset (before ++ blanks) rest := by
  obtain ⟨blanks, hblanks, hrest, hpast⟩ := (behind offset before text).exists_blanks
  exact ⟨blanks, _, hrest, hblanks, not_of_mem_head?_dropWhile,
    hpast.symm.trans (past_behind offset before blanks text _)⟩

theorem skipBlanks_behind (hblanks : ∀ x ∈ blanks, isBlank x)
    (hrest : ∀ x ∈ rest.head?, ¬ isBlank x) :
    (behind offset before (blanks ++ rest)).skipBlanks = behind offset (before ++ blanks) rest := by
  rw [skipBlanks_of_rest_eq rfl hblanks hrest, past_behind]

theorem Runs.tiles (h : c.Runs ls out) (hc : c = behind offset before text) :
    Tiles offset before text ls out := by
  induction h generalizing before text with
  | finished h =>
    obtain ⟨blanks, rest, rfl, hblanks, -, hskip⟩ := exists_skipBlanks_behind offset before text
    have hnil : rest = [] := by
      have hskipped := (next_eq_none_iff.mp h).1
      rwa [hc, hskip] at hskipped
    rw [hnil, List.append_nil]
    exact .finished hblanks
  | failed h =>
    obtain ⟨blanks, rest, rfl, hblanks, hhead, hskip⟩ := exists_skipBlanks_behind offset before text
    have hstuck := stuck_of_next_eq_error h
    rw [hc, hskip] at hstuck
    exact .stuck hblanks hhead hstuck
  | @token c d l ls out h _ ih =>
    obtain ⟨blanks, rest, rfl, hblanks, -, hskip⟩ := exists_skipBlanks_behind offset before text
    obtain ⟨hstart, htakes⟩ := next_eq_some_iff.mp h
    rw [hc, hskip] at hstart htakes
    have hrest : rest = l.token.text ++ d.rest := htakes.rest_eq
    have hd : d = behind offset (before ++ blanks ++ l.token.text) d.rest := by
      rw [← past_behind, htakes.past_eq]
    obtain ⟨start, tok⟩ := l
    obtain rfl : start = behind offset (before ++ blanks) rest := hstart
    rw [hrest]
    exact .token hblanks (Munches.iff_spelled.mpr ⟨htakes.valid, htakes.ends, rfl⟩) (ih hd)

theorem runs_of_tiles (h : Tiles offset before text ls out) :
    (behind offset before text).Runs ls out := by
  have hempty : ∀ x ∈ ([] : List Char).head?, ¬ isBlank x := fun x hx ↦ by simp at hx
  induction h with
  | @finished before blanks hblanks =>
    have hskip : (behind offset before (blanks ++ [])).skipBlanks =
        behind offset (before ++ blanks) [] := skipBlanks_behind hblanks hempty
    rw [List.append_nil] at hskip
    exact .finished (next_of_rest_eq_nil (by rw [hskip]; rfl))
  | @stuck before blanks rest e hblanks hrest h =>
    have hskip : (behind offset before (blanks ++ rest)).skipBlanks =
        behind offset (before ++ blanks) rest := skipBlanks_behind hblanks hrest
    obtain ⟨d, hnext⟩ := exists_next_eq_error_of_stuck (by rw [hskip]; exact h)
    exact .failed hnext
  | @token before blanks raw after tok ls out hblanks hraw _ ih =>
    obtain ⟨hvalid, hends, rfl⟩ := Munches.iff_spelled.mp hraw
    have hhead : ∀ x ∈ (tok.text ++ after).head?, ¬ isBlank x := by
      obtain ⟨x, xs, htext, hx, -⟩ := Token.exists_text_eq_cons hvalid
      rw [htext]
      exact fun y hy ↦ Option.some.inj hy ▸ hx
    have hskip : (behind offset before (blanks ++ (tok.text ++ after))).skipBlanks =
        behind offset (before ++ blanks) (tok.text ++ after) := skipBlanks_behind hblanks hhead
    refine .token (next_eq_some_iff.mpr ⟨hskip.symm, ?_⟩) ih
    rw [hskip]
    exact ⟨hvalid, rfl, hends, past_behind offset _ _ _ _⟩

/-- **The tokens of a text.** Asking for the next token until there is none, or until there is an
error, comes to one end, and the text is tiled by tokens in one way, which is that of the asking.
The tokens stand at increasing positions. -/
theorem tokens_tile_text (text : List Char) (offset : Nat) :
    ∃ ls out, (∀ ls' out', (start text offset).Runs ls' out' ↔ ls' = ls ∧ out' = out) ∧
      (∀ ls' out', Tiles offset [] text ls' out' ↔ ls' = ls ∧ out' = out) ∧
      (ls.map Lexeme.position).Pairwise (· < ·) := by
  have htiles : ∀ ls out, Tiles offset [] text ls out ↔ (start text offset).Runs ls out :=
    fun ls out ↦ ⟨runs_of_tiles, fun h ↦ h.tiles rfl⟩
  have hruns := (start text offset).runs_lexemes
  refine ⟨_, _, fun ls' out' ↦ runs_iff, fun ls' out' ↦ ?_, ?_⟩
  · rw [htiles, runs_iff]
  · exact ((htiles _ _).mpr hruns).pairwise_position

end Cursor

end Interpolation
