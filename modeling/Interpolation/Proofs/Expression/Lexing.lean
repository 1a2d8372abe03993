import Interpolation.Proofs.Expression.Spelling

/-!
# Scans of a text

With the spelling of tokens known, a scan can be followed on the text alone: `Lexes` says which
tokens a text begins with and what is left behind them. Positions come back as the lengths of what
was passed.

What a token is does not depend on the text behind it, as long as that does not continue it. This is
`Lexes.replace`: a text can be cut off behind some of its tokens and go on in another way.
-/

namespace Interpolation

open Text

/-! ## Moving on -/

namespace Cursor

variable {c d : Cursor}

/-- The cursor `d` is further on in the text of `c`. -/
def Precedes (c d : Cursor) : Prop := ∃ passed, c.rest = passed ++ d.rest ∧ c.past passed d.rest = d

theorem Precedes.trans {b : Cursor} (h : b.Precedes c) (h' : c.Precedes d) : b.Precedes d := by
  obtain ⟨p, hp, hc⟩ := h
  obtain ⟨q, hq, hd⟩ := h'
  refine ⟨p ++ q, by rw [hp, hq, List.append_assoc], ?_⟩
  calc b.past (p ++ q) d.rest = (b.past p c.rest).past q d.rest := by simp [past, Nat.add_assoc]
    _ = c.past q d.rest := by rw [hc]
    _ = d := hd

theorem exists_blanks (c : Cursor) : ∃ blanks, (∀ x ∈ blanks, isBlank x) ∧
    c.rest = blanks ++ c.skipBlanks.rest ∧ c.past blanks c.skipBlanks.rest = c.skipBlanks :=
  ⟨c.rest.takeWhile isBlank, List.all_eq_true.mp List.all_takeWhile,
    List.takeWhile_append_dropWhile.symm, rfl⟩

theorem precedes_skipBlanks (c : Cursor) : c.Precedes c.skipBlanks := by
  obtain ⟨blanks, -, hrest, hpast⟩ := c.exists_blanks
  exact ⟨blanks, hrest, hpast⟩

theorem Takes.precedes {tok : Token} (h : c.Takes tok d) : c.Precedes d :=
  ⟨tok.text, h.rest_eq, h.past_eq⟩

end Cursor

/-! ## Scans of a text -/

/-- The text begins with the tokens, as they would be scanned, and `out` is left behind them. Blanks
may stand before each token and before `out`. -/
inductive Lexes : List Char → List Token → List Char → Prop where
  | nil {blanks out : List Char} (hb : ∀ x ∈ blanks, isBlank x) : Lexes (blanks ++ out) [] out
  | cons {blanks rest out : List Char} {tok : Token} {toks : List Token}
      (hb : ∀ x ∈ blanks, isBlank x) (hv : tok.Valid) (he : tok.EndsBefore rest)
      (h : Lexes rest toks out) : Lexes (blanks ++ (tok.text ++ rest)) (tok :: toks) out

namespace Lexes

variable {cs mid out new : List Char} {toks more : List Token}

theorem blank {x : Char} (hx : isBlank x) (h : Lexes cs toks out) : Lexes (x :: cs) toks out := by
  have hcons : ∀ {blanks : List Char}, (∀ y ∈ blanks, isBlank y) →
      ∀ y ∈ x :: blanks, isBlank y := by
    intro blanks hb y hy
    rcases List.mem_cons.mp hy with rfl | hy
    · exact hx
    · exact hb y hy
  cases h with
  | nil hb => exact .nil (hcons hb)
  | cons hb hv he h => exact .cons (hcons hb) hv he h

theorem trans (h : Lexes cs toks mid) (h' : Lexes mid more out) : Lexes cs (toks ++ more) out := by
  induction h with
  | @nil blanks out hb =>
    induction blanks with
    | nil => exact h'
    | cons x blanks ih =>
      exact (ih fun y hy ↦ hb y (List.mem_cons_of_mem x hy)).blank (hb x List.mem_cons_self)
  | cons hb hv he _ ih => exact .cons hb hv he (ih h')

/-- **Another text may follow**, if it does not continue what the old one ended. -/
theorem replace (h : Lexes cs toks out)
    (hnew : ∀ tok : Token, tok.EndsBefore out → tok.EndsBefore new) :
    ∃ passed, cs = passed ++ out ∧ Lexes (passed ++ new) toks new := by
  induction h with
  | @nil blanks out hb => exact ⟨blanks, rfl, .nil hb⟩
  | @cons blanks rest out tok toks hb hv he _ ih =>
    obtain ⟨passed, rfl, hpassed⟩ := ih hnew
    refine ⟨blanks ++ (tok.text ++ passed), by simp, ?_⟩
    rw [List.append_assoc, List.append_assoc]
    exact .cons hb hv (Token.endsBefore_append (hnew tok) he) hpassed

end Lexes

namespace Lexeme

variable {l : Lexeme}

/-- The token of a lexeme is spelled where the lexeme begins. -/
def Spelled (l : Lexeme) : Prop := l.token.Valid ∧ l.token.text <+: l.start.rest

theorem Spelled.rest_ne_nil (h : l.Spelled) : l.start.rest ≠ [] :=
  h.2.ne_nil (Token.text_ne_nil h.1)

theorem Spelled.blames_text (h : l.Spelled) : l.start.Blames (l.start.unexpected l.token.text) :=
  ⟨l.token.text, Token.text_ne_nil h.1, h.2, rfl⟩

theorem Spelled.blames_rest (h : l.Spelled) : l.start.Blames (l.start.unexpected l.start.rest) :=
  ⟨l.start.rest, h.rest_ne_nil, List.prefix_refl _, rfl⟩

theorem Spelled.blames_here (h : l.Spelled) : l.start.Blames l.start.unexpectedHere :=
  Cursor.blames_unexpectedHere h.rest_ne_nil

end Lexeme

namespace Cursor

variable {c d last : Cursor} {l : Lexeme} {ls taken : List Lexeme}

theorem skipBlanks_of_rest_eq {blanks rest : List Char} (h : c.rest = blanks ++ rest)
    (hb : ∀ x ∈ blanks, isBlank x) (hrest : ∀ x ∈ rest.head?, ¬ isBlank x) :
    c.skipBlanks = c.past blanks rest := by
  obtain ⟨htake, hdrop⟩ := takeWhile_dropWhile_append hb hrest
  rw [skipBlanks, h, htake, hdrop]

/-- A text that spells tokens to its end is scanned as these tokens. -/
theorem exists_scans_of_lexes {toks : List Token} (h : Lexes c.rest toks []) :
    ∃ ls, c.Scans ls ∧ ls.map Lexeme.token = toks := by
  generalize hcs : c.rest = cs at h
  generalize hout : ([] : List Char) = out at h
  induction h generalizing c with
  | @nil blanks out hb =>
    subst hout
    have hskip := skipBlanks_of_rest_eq hcs hb (by simp)
    have hrest : c.skipBlanks.rest = [] := by rw [hskip, past]
    exact ⟨[], .finished (next_of_rest_eq_nil hrest), rfl⟩
  | @cons blanks rest out tok toks hb hv he _ ih =>
    obtain ⟨x, xs, htext, hx, -⟩ := Token.exists_text_eq_cons hv
    have hskip : c.skipBlanks = c.past blanks (tok.text ++ rest) := by
      refine skipBlanks_of_rest_eq hcs hb fun y hy ↦ ?_
      rw [htext] at hy
      exact Option.some.inj hy ▸ hx
    have htakes : c.skipBlanks.Takes tok (c.skipBlanks.past tok.text rest) :=
      ⟨hv, by rw [hskip]; rfl, he, rfl⟩
    have hnext : c.next = (.ok (some ⟨c.skipBlanks, tok⟩), c.skipBlanks.past tok.text rest) :=
      next_eq_some_iff.mpr ⟨rfl, htakes⟩
    obtain ⟨ls, hls, hmap⟩ := ih (c := c.skipBlanks.past tok.text rest) rfl hout
    exact ⟨⟨c.skipBlanks, tok⟩ :: ls, .token hnext hls, by rw [List.map_cons, hmap]⟩

/-- A scan fails at the first character behind the blanks. -/
theorem ending_eq_failed_iff {start : Cursor} {e : SyntaxError} :
    c.ending = .failed start e ↔ start = c.skipBlanks ∧ ∃ d, c.next = (.error e, d) := by
  rw [ending]
  rcases h : c.next with ⟨e' | a, d⟩
  · simp [eq_comm, and_comm]
  · simp

theorem lexemes_eq_cons (h : c.lexemes = (l :: ls, last)) :
    ∃ d, c.next = (.ok (some l), d) ∧ d.lexemes = (ls, last) := by
  rcases hn : c.next with ⟨_ | _ | l', d⟩
  · rw [lexemes_of_next_ne_some (by simp [hn])] at h
    cases h
  · rw [lexemes_of_next_ne_some (by simp [hn])] at h
    cases h
  · rw [lexemes_of_next_some hn] at h
    cases h
    exact ⟨d, rfl, rfl⟩

theorem lexemes_eq_nil (h : c.lexemes = ([], last)) : c = last := by
  rcases hn : c.next with ⟨_ | _ | l', d⟩
  · rw [lexemes_of_next_ne_some (by simp [hn])] at h
    exact congrArg Prod.snd h
  · rw [lexemes_of_next_ne_some (by simp [hn])] at h
    exact congrArg Prod.snd h
  · rw [lexemes_of_next_some hn] at h
    cases h

theorem spelled_of_lexemes (h : c.lexemes = (ls, last)) : ∀ l ∈ ls, l.Spelled := by
  induction ls generalizing c with
  | nil =>
    intro l hl
    cases hl
  | cons l' ls ih =>
    intro l hl
    obtain ⟨d, hnext, hd⟩ := lexemes_eq_cons h
    obtain ⟨hstart, htakes⟩ := next_eq_some_iff.mp hnext
    rcases List.mem_cons.mp hl with rfl | hl
    · exact ⟨htakes.valid, by rw [hstart, htakes.rest_eq]; exact List.prefix_append _ _⟩
    · exact ih hd l hl

/-- Where the scan of a text stands before some of its lexemes: at the first of them or, if none is
left, where it ended. -/
def front (last : Cursor) : List Lexeme → Cursor
  | [] => last.skipBlanks
  | l :: _ => l.start

/-- **What lies before a lexeme** are the tokens of the lexemes that precede it. -/
theorem lexes_front (h : c.lexemes = (taken ++ ls, last)) :
    Lexes c.rest (taken.map Lexeme.token) (front last ls).rest ∧ c.Precedes (front last ls) := by
  induction taken generalizing c with
  | nil =>
    have hfront : front last ls = c.skipBlanks := by
      cases ls with
      | nil => rw [lexemes_eq_nil h, front]
      | cons l ls =>
        obtain ⟨d, hnext, -⟩ := lexemes_eq_cons h
        exact (next_eq_some_iff.mp hnext).1
    obtain ⟨blanks, hblanks, hrest, -⟩ := c.exists_blanks
    rw [hfront]
    refine ⟨?_, precedes_skipBlanks c⟩
    have hlexes : Lexes (blanks ++ c.skipBlanks.rest) [] c.skipBlanks.rest := .nil hblanks
    rwa [← hrest] at hlexes
  | cons l taken ih =>
    obtain ⟨d, hnext, hd⟩ := lexemes_eq_cons h
    obtain ⟨-, htakes⟩ := next_eq_some_iff.mp hnext
    obtain ⟨hlexes, hprecedes⟩ := ih hd
    obtain ⟨blanks, hblanks, hrest, -⟩ := c.exists_blanks
    refine ⟨?_, (precedes_skipBlanks c).trans (htakes.precedes.trans hprecedes)⟩
    have hcons := Lexes.cons hblanks htakes.valid htakes.ends hlexes
    rwa [← htakes.rest_eq, ← hrest] at hcons

end Cursor

end Interpolation
