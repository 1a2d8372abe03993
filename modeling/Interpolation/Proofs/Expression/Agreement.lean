import Mathlib
import Interpolation.Proofs.Expression.Climbing
import Interpolation.Proofs.Expression.Stages

/-!
# Climbing reads what the library reads

The reader of the library first scans the whole text. Here the lexemes that follow a cursor are
known beforehand, and every step of climbing takes the cursor to where some of them are left:
`Agrees` says so of an answer. The two readers try operators in different orders, but a level of the
library may as well go from one connective to the next.

A level is read in the same way by both, given that both read the next deeper one in the same way
(`Mirrors`), and the deepest one opens no other.
-/

namespace Interpolation

open Text

/-! ## The lexemes from a cursor on -/

namespace Cursor

variable {c d : Cursor} {l : Lexeme} {ls : List Lexeme} {out : Ending} {op : Operator}
  {text : List Char}

/-- The lexemes from the cursor on, and how they end. -/
def Yields (c : Cursor) (ls : List Lexeme) (out : Ending) : Prop :=
  c.lexemes.1 = ls ∧ c.lexemes.2.ending = out

theorem yields_cons_iff : c.Yields (l :: ls) out ↔
    ∃ d, c.next = (.ok (some l), d) ∧ d.Yields ls out := by
  constructor
  · rintro ⟨hls, hout⟩
    obtain ⟨d, hnext, hd⟩ := lexemes_eq_cons (Prod.ext hls rfl)
    refine ⟨d, hnext, ?_⟩
    rw [Yields, hd]
    exact ⟨rfl, hout⟩
  · rintro ⟨d, hnext, rfl, rfl⟩
    rw [Yields, lexemes_of_next_some hnext]
    exact ⟨rfl, rfl⟩

theorem yields_nil_iff :
    c.Yields [] out ↔ (∀ l d, c.next ≠ (.ok (some l), d)) ∧ c.ending = out := by
  constructor
  · rintro ⟨hls, hout⟩
    have hlast : c = c.lexemes.2 := lexemes_eq_nil (Prod.ext hls rfl)
    refine ⟨fun l d hnext ↦ ?_, hlast ▸ hout⟩
    rw [lexemes_of_next_some hnext] at hls
    cases hls
  · rintro ⟨hnone, hout⟩
    rw [Yields, lexemes_of_next_ne_some hnone]
    exact ⟨rfl, hout⟩

theorem yields_finished_iff : c.Yields [] .finished ↔ c.skipBlanks.rest = [] := by
  rw [yields_nil_iff, ending_eq_finished_iff]
  constructor
  · rintro ⟨hnone, a, d, hnext⟩
    obtain _ | l := a
    · exact (next_eq_none_iff.mp hnext).1
    · exact absurd hnext (hnone l d)
  · intro hrest
    have hnext := next_of_rest_eq_nil hrest
    exact ⟨fun l d h ↦ by simp [hnext] at h, none, _, hnext⟩

theorem skipBlanks_skipBlanks (c : Cursor) : c.skipBlanks.skipBlanks = c.skipBlanks := by
  have hnone : ∀ x ∈ ([] : List Char), isBlank x := fun x hx ↦ absurd hx List.not_mem_nil
  exact skipBlanks_of_rest_eq (List.nil_append _).symm hnone not_of_mem_head?_dropWhile

theorem next_skipBlanks (c : Cursor) : c.skipBlanks.next = c.next := by
  rw [next, next, skipBlanks_skipBlanks]

theorem Yields.skipBlanks (h : c.Yields ls out) : c.skipBlanks.Yields ls out := by
  cases ls with
  | nil =>
    obtain ⟨hnone, hout⟩ := yields_nil_iff.mp h
    refine yields_nil_iff.mpr ⟨by rwa [next_skipBlanks], ?_⟩
    rwa [ending, next_skipBlanks, skipBlanks_skipBlanks]
  | cons l ls =>
    rw [yields_cons_iff] at h ⊢
    rwa [next_skipBlanks]

/-- An operator is seen at the cursor if it is the next token. -/
theorem operator?_skipBlanks_eq_some_iff : c.skipBlanks.operator? = some op ↔
    ∃ d, c.next = (.ok (some ⟨c.skipBlanks, .operator op⟩), d) := by
  constructor
  · intro h
    obtain ⟨⟨op', after⟩, hafter, heq⟩ := Option.map_eq_some_iff.mp h
    obtain rfl : op' = op := heq
    have hrest := Operator.ofText?_eq_some_iff.mp hafter
    exact ⟨c.skipBlanks.past op'.symbol.toList after,
      next_eq_some_iff.mpr ⟨rfl, trivial, hrest, trivial, rfl⟩⟩
  · rintro ⟨d, h⟩
    have hrest : c.skipBlanks.rest = op.symbol.toList ++ d.rest :=
      (next_eq_some_iff.mp h).2.rest_eq
    rw [operator?, hrest, Operator.ofText?_symbol]
    rfl

/-- The cursor stands in the text, and these are the lexemes from there on. -/
structure Leaves (text : List Char) (out : Ending) (c : Cursor) (ls : List Lexeme) : Prop where
  standsIn : c.StandsIn text
  yields : c.Yields ls out

/-- Besides, there is no blank at the cursor. -/
structure Faces (text : List Char) (out : Ending) (c : Cursor) (ls : List Lexeme) : Prop
    extends Leaves text out c ls where
  front : c.skipBlanks = c

/-- Where only blanks are left, there are no lexemes. -/
theorem eq_nil_of_yields (h : c.Yields ls out) (hrest : c.skipBlanks.rest = []) :
    ls = [] ∧ out = .finished := by
  obtain ⟨hls, hout⟩ := yields_finished_iff.mpr hrest
  exact ⟨h.1.symm.trans hls, h.2.symm.trans hout⟩

theorem Leaves.faces (h : Leaves text out c ls) : Faces text out c.skipBlanks ls :=
  ⟨⟨h.standsIn.precedes (precedes_skipBlanks c), h.yields.skipBlanks⟩, skipBlanks_skipBlanks c⟩

/-- The state of a parser at the cursor. -/
def atDepth (text : List Char) (c : Cursor) (depth : Nat) : Parser := ⟨c.inBytes text, depth⟩

namespace Faces

theorem atEnd_iff (h : Faces text out c ls) : c.atEnd ↔ ls = [] ∧ out = .finished := by
  rw [atEnd, List.isEmpty_iff]
  constructor
  · intro hrest
    rw [← h.front] at hrest
    exact eq_nil_of_yields h.yields hrest
  · rintro ⟨rfl, rfl⟩
    rw [← h.front]
    exact yields_finished_iff.mp h.yields

theorem start_eq (h : Faces text out c (l :: ls)) : l.start = c := by
  obtain ⟨d, hnext, -⟩ := yields_cons_iff.mp h.yields
  rw [(next_eq_some_iff.mp hnext).1, h.front]

theorem operator?_eq_some_iff (h : Faces text out c ls) :
    c.operator? = some op ↔ ∃ l tail, ls = l :: tail ∧ l.token = .operator op := by
  have hiff : c.skipBlanks.operator? = some op ↔ _ := operator?_skipBlanks_eq_some_iff
  rw [h.front] at hiff
  rw [hiff]
  constructor
  · rintro ⟨d, hnext⟩
    refine ⟨⟨c, .operator op⟩, d.lexemes.1, ?_, rfl⟩
    rw [← h.yields.1, lexemes_of_next_some hnext]
  · rintro ⟨⟨start, token⟩, tail, rfl, rfl⟩
    obtain rfl : start = c := h.start_eq
    obtain ⟨d, hnext, -⟩ := yields_cons_iff.mp h.yields
    exact ⟨d, hnext⟩

/-- Behind an operator that is passed, the next lexemes are left. -/
theorem advance (h : Faces text out c (l :: ls)) (hl : l.token = .operator op) :
    Leaves text out (c.advance op) ls := by
  have hop : c.operator? = some op := h.operator?_eq_some_iff.mpr ⟨l, ls, rfl, hl⟩
  have htakes := h.standsIn.takes_advance hop
  refine ⟨h.standsIn.precedes htakes.precedes, ?_⟩
  obtain ⟨d, hnext, hd⟩ := yields_cons_iff.mp h.yields
  have hsame : c.next = (.ok (some l), c.advance op) :=
    next_eq_some_iff.mpr ⟨h.start_eq.trans h.front.symm, by rwa [h.front, hl]⟩
  rw [hnext] at hsame
  cases hsame
  exact hd

end Faces

end Cursor

/-! ## Answers that agree -/

/-- An answer of climbing from `c` on, as `f` makes it of a result, and what the library reads. They
are the same error, or the results are the same and the cursor stands before the lexemes that are
left, in the way that `left` says. In both cases it has not moved backward. -/
inductive Agrees {α β : Type} (text : List Char) (depth : Nat) (c : Cursor)
    (left : Cursor → List Lexeme → Prop) (f : β → α) :
    Option (Parser.Parsed α) → Except SyntaxError (β × List Lexeme) → Prop where
  | refused {d : Cursor} {e : SyntaxError} (hcd : c.Precedes d) :
      Agrees text depth c left f (some (.error e, d.atDepth text depth)) (.error e)
  | read {d : Cursor} {b : β} {rest : List Lexeme} (hcd : c.Precedes d) (hd : left d rest) :
      Agrees text depth c left f (some (.ok (f b), d.atDepth text depth)) (.ok (b, rest))

theorem Agrees.mono {α β : Type} {text : List Char} {depth : Nat} {c d : Cursor}
    {left : Cursor → List Lexeme → Prop} {f : β → α} {answer : Option (Parser.Parsed α)}
    {reading : Except SyntaxError (β × List Lexeme)} (hcd : c.Precedes d)
    (h : Agrees text depth d left f answer reading) :
    Agrees text depth c left f answer reading := by
  cases h with
  | refused hd => exact .refused (hcd.trans hd)
  | read hd hleft => exact .read (hcd.trans hd) hleft

/-- The readers of the next deeper level agree, or there is no such level. -/
def Mirrors (text : List Char) (out : Ending) (depth : Nat) (inner : Parser.Next) :
    Option Tree.Reader → Prop
  | none => depth = Tree.maxLevels
  | some read => depth < Tree.maxLevels ∧ ∀ (c : Cursor) (k : Connective) (ls : List Lexeme),
      c.Leaves text out ls →
        Agrees text (depth + 1) c (Cursor.Faces text out) id
          (inner (c.atDepth text (depth + 1)) k false) (read k ls)

namespace Cursor

variable {text : List Char} {c d : Cursor} {depth : Nat}

theorem skipBlanks_atDepth (h : c.StandsIn text) :
    (c.atDepth text depth).skipBlanks = c.skipBlanks.atDepth text depth := by
  rw [Parser.skipBlanks, atDepth, h.skipBlanks_inBytes]
  rfl

theorem atEnd_atDepth (h : c.StandsIn text) : (c.atDepth text depth).cursor.atEnd = c.atEnd :=
  h.atEnd_inBytes

theorem operator?_atDepth (h : c.StandsIn text) (depth : Nat) :
    (c.atDepth text depth).cursor.operator? = some c.operator? := h.operator?_inBytes

theorem next_atDepth {answer : Except SyntaxError (Option Lexeme)} (h : c.StandsIn text)
    (hnext : c.next = (answer, d)) :
    (c.atDepth text depth).cursor.next = some (found answer, d.inBytes text) := by
  rw [atDepth, h.next_inBytes, hnext, answerInBytes]

theorem advance_atDepth (op : Operator) :
    (c.atDepth text depth).advance op = (c.advance op).atDepth text depth := rfl

theorem deeper?_atDepth_of_lt (h : depth < Tree.maxLevels) :
    (c.atDepth text depth).deeper? = some (c.atDepth text (depth + 1)) := if_pos h

theorem deeper?_atDepth_of_eq (h : depth = Tree.maxLevels) :
    (c.atDepth text depth).deeper? = none := if_neg (Nat.not_lt.mpr (Nat.le_of_eq h.symm))

theorem remaining_le (h : c.Precedes d) :
    (d.atDepth text depth).remaining ≤ (c.atDepth text depth).remaining :=
  Nat.sub_le_sub_left h.position_le _

/-- Behind an operator that is passed, less of the text is left. -/
theorem remaining_lt {op : Operator} (h : c.StandsIn text) (hop : c.operator? = some op)
    (hd : (c.advance op).Precedes d) :
    (d.atDepth text depth).remaining < (c.atDepth text depth).remaining := by
  have htakes := h.takes_advance hop
  have hlt : c.position < (c.advance op).position :=
    Nat.lt_add_of_pos_right (byteLength_pos (Token.text_ne_nil htakes.valid))
  have hle : (c.advance op).position ≤ byteLength text :=
    (h.precedes htakes.precedes).position_le
  calc (d.atDepth text depth).remaining
      ≤ ((c.advance op).atDepth text depth).remaining := remaining_le hd
    _ < (c.atDepth text depth).remaining := Nat.sub_lt_sub_left (Nat.lt_of_lt_of_le hlt hle) hlt

end Cursor

section Levels

variable {text : List Char} {out : Ending} {depth n : Nat} {inner : Parser.Next}
  {deeper : Option Tree.Reader} {read : Tree.Reader} {c d : Cursor} {k least : Connective}
  {t : Tree} {operand : Option Tree} {op : Operator} {l : Lexeme} {ls tail : List Lexeme}

/-! ## Right-hand sides -/

/-- **A right-hand side.** -/
theorem join_agrees (hm : Mirrors text out depth inner deeper) (hc : c.Faces text out (l :: tail))
    (hl : l.token = .operator (.connective k)) :
    Agrees text depth (c.advance (.connective k)) (Cursor.Leaves text out) (fun t ↦ (true, some t))
      ((c.atDepth text depth).join inner k (some t)) (Tree.readJoin deeper k t (l :: tail)) := by
  rw [Tree.readJoin, if_pos hl, hc.start_eq]
  cases deeper with
  | none =>
    simp only [Parser.join, Cursor.advance_atDepth, Cursor.deeper?_atDepth_of_eq hm]
    exact .refused (.refl _)
  | some read =>
    have hinner := hm.2 _ k tail (hc.advance hl)
    simp only [Parser.join, Cursor.advance_atDepth, Cursor.deeper?_atDepth_of_lt hm.1]
    generalize inner _ k false = answer at hinner ⊢
    generalize read k tail = reading at hinner ⊢
    cases hinner with
    | refused hd => exact .refused hd
    | @read d side rest hd hfaces =>
      cases side with
      | none => exact .refused hd
      | some r => exact .read hd hfaces.toLeaves

/-! ## Parentheses -/

theorem close_of_rightParen (h : d.StandsIn text) (hop : d.operator? = some .rightParen)
    (place : Nat) : (d.atDepth text depth).close place (some t) =
      some (.ok (true, some (.group t)), (d.advance .rightParen).atDepth text depth) := by
  have hpeek := Cursor.operator?_atDepth h depth
  rw [Parser.close]
  simp only [hpeek, hop]
  rfl

/-- Without a closing parenthesis, the text from the opening one on is blamed. -/
theorem close_of_not_rightParen {content : Option Tree} (h : c.StandsIn text) (hcd : c.Precedes d)
    (hop : content = none ∨ d.operator? ≠ some .rightParen) :
    (d.atDepth text depth).close c.position content =
      some (.error (c.unexpected c.rest), d.atDepth text depth) := by
  have hblame : (d.inBytes text).unexpected c.rest c.position = c.unexpected c.rest := by
    rw [ByteCursor.unexpected, Cursor.inBytes, hcd.offset_eq]
    rfl
  have hunclosed : (((d.inBytes text).rest? c.position).map fun rest ↦
      ((.error ((d.inBytes text).unexpected rest c.position), d.atDepth text depth) :
        Parser.Parsed (Bool × Option Tree))) =
      some (.error (c.unexpected c.rest), d.atDepth text depth) := by
    rw [h.rest?_inBytes d, Option.map_some, hblame]
  obtain _ | t := content
  · exact hunclosed
  · have hne : d.operator? ≠ some .rightParen := hop.resolve_left (Option.some_ne_none t)
    have hpeek := Cursor.operator?_atDepth (h.precedes hcd) depth
    rw [Parser.close]
    simp only [hpeek, Option.bind_eq_bind, Option.bind_some, if_neg hne]
    exact hunclosed

theorem close_agrees (content : Option Tree) (depth : Nat) (h : c.StandsIn text)
    (hcd : c.Precedes d) (hd : d.Faces text out ls) :
    Agrees text depth d (Cursor.Leaves text out) (fun t ↦ (true, some t))
      ((d.atDepth text depth).close c.position content) (Tree.closePair c (.ok (content, ls))) := by
  by_cases hopen : content = none ∨ d.operator? ≠ some .rightParen
  · rw [close_of_not_rightParen h hcd hopen, Tree.closePair.eq_def]
    split
    · rename_i heq
      cases heq
    · rename_i heq
      cases heq
      exact absurd (hd.operator?_eq_some_iff.mpr ⟨_, _, rfl, rfl⟩) (by simpa using hopen)
    · exact .refused (.refl d)
  · obtain ⟨hsome, hop⟩ := not_or.mp hopen
    rw [not_not] at hop
    obtain ⟨t, rfl⟩ := Option.ne_none_iff_exists'.mp hsome
    obtain ⟨⟨start, token⟩, rest, rfl, rfl⟩ := hd.operator?_eq_some_iff.mp hop
    rw [close_of_rightParen hd.standsIn hop]
    exact .read (hd.standsIn.takes_advance hop).precedes (hd.advance rfl)

/-- **A pair of parentheses.** -/
theorem enclose_agrees (least : Connective) (hm : Mirrors text out depth inner deeper)
    (hc : c.Faces text out (⟨c, .operator .leftParen⟩ :: tail)) :
    ∃ reading, Tree.readOperand out deeper least (⟨c, .operator .leftParen⟩ :: tail) =
        Tree.certain reading ∧
      Agrees text depth (c.advance .leftParen) (Cursor.Leaves text out) (fun t ↦ (true, some t))
        ((c.atDepth text depth).enclose inner none) reading := by
  obtain _ | read := deeper
  · refine ⟨.error _, rfl, ?_⟩
    simp only [Parser.enclose, Cursor.advance_atDepth, Cursor.deeper?_atDepth_of_eq hm]
    exact .refused (.refl _)
  have hinner := hm.2 _ .or tail (hc.advance rfl)
  refine ⟨_, Tree.readOperand_leftParen, ?_⟩
  simp only [Parser.enclose, Cursor.advance_atDepth, Cursor.deeper?_atDepth_of_lt hm.1]
  generalize inner _ .or false = answer at hinner ⊢
  generalize read .or tail = reading at hinner ⊢
  cases hinner with
  | refused hd => exact .refused hd
  | @read d content rest hd hfaces =>
    have hparen : c.operator? = some .leftParen := hc.operator?_eq_some_iff.mpr ⟨_, tail, rfl, rfl⟩
    have hafter := (hc.standsIn.takes_advance hparen).precedes
    have hskip : (d.atDepth text depth).skipBlanks = d.atDepth text depth := by
      rw [Cursor.skipBlanks_atDepth hfaces.standsIn, hfaces.front]
    have hclose := (close_agrees content depth hc.standsIn (hafter.trans hd) hfaces).mono hd
    rw [← hskip] at hclose
    exact hclose

/-! ## The loop over the operators -/

theorem operators_skipBlanks (h : c.StandsIn text) :
    (c.atDepth text depth).operators inner least operand =
      (c.skipBlanks.atDepth text depth).operators inner least operand := by
  have hskip : (c.skipBlanks.atDepth text depth).skipBlanks = c.skipBlanks.atDepth text depth := by
    rw [Cursor.skipBlanks_atDepth (h.precedes (Cursor.precedes_skipBlanks c)),
      Cursor.skipBlanks_skipBlanks]
  rw [Parser.operators, Cursor.skipBlanks_atDepth h, Parser.operators, hskip]

/-- The loop ends where nothing can be taken. -/
theorem operators_of_stop (hc : c.Faces text out ls)
    (hweak : ∀ k, c.operator? = some (.connective k) → k.strength < least.strength)
    (hparen : c.operator? ≠ some .leftParen) :
    (c.atDepth text depth).operators inner least operand =
      some (.ok operand, c.atDepth text depth) := by
  have hpeek := Cursor.operator?_atDepth hc.standsIn depth
  rw [Parser.operators, Cursor.skipBlanks_atDepth hc.standsIn, hc.front]
  by_cases hend : (c.atDepth text depth).cursor.atEnd
  · rw [if_pos hend]
  · rw [if_neg hend, Parser.operator_of_not_connective hpeek hweak,
      Parser.group_of_not_seen hpeek hparen]

theorem operators_of_operator (hc : c.Faces text out ls) (hop : c.operator? = some op) :
    (c.atDepth text depth).operators inner least operand =
      match (c.atDepth text depth).operator inner least operand with
      | none => none
      | some (.error e, q) => some (.error e, q)
      | some (.ok (false, operand), q) => some (.ok operand, q)
      | some (.ok (true, operand), q) =>
        if q.remaining < (c.atDepth text depth).remaining then q.operators inner least operand
        else none := by
  have hend : ¬ c.atEnd := by
    obtain ⟨l, tail, rfl, -⟩ := hc.operator?_eq_some_iff.mp hop
    exact fun hend ↦ absurd (hc.atEnd_iff.mp hend).1 (List.cons_ne_nil _ _)
  rw [Parser.operators, Cursor.skipBlanks_atDepth hc.standsIn, hc.front,
    Cursor.atEnd_atDepth hc.standsIn]
  exact if_neg hend

/-- The loop takes what the operator at the cursor belongs to, and goes on. -/
theorem operators_of_taken {reading : Except SyntaxError (Tree × List Lexeme)}
    (hc : c.Faces text out ls) (hop : c.operator? = some op)
    (htaken : Agrees text depth (c.advance op) (Cursor.Leaves text out) (fun t ↦ (true, some t))
      ((c.atDepth text depth).operator inner least operand) reading)
    (hmore : ∀ (d : Cursor) (t : Tree) (rest : List Lexeme), (c.advance op).Precedes d →
      d.Leaves text out rest → Agrees text depth d (Cursor.Faces text out) some
        ((d.atDepth text depth).operators inner least (some t))
        (Tree.readJoins deeper least t rest)) :
    Agrees text depth c (Cursor.Faces text out) some
      ((c.atDepth text depth).operators inner least operand)
      (reading >>= fun p ↦ Tree.readJoins deeper least p.1 p.2) := by
  have hafter := (hc.standsIn.takes_advance hop).precedes
  rw [operators_of_operator hc hop]
  generalize (c.atDepth text depth).operator inner least operand = answer at htaken ⊢
  cases htaken with
  | refused hd => exact .refused (hafter.trans hd)
  | read hd hrest =>
    simp only [if_pos (Cursor.remaining_lt hc.standsIn hop hd)]
    exact (hmore _ _ _ hd hrest).mono (hafter.trans hd)

/-- Where no connective binds tightly enough, only a parenthesis can be wrong. -/
theorem operators_of_loose (hc : c.Faces text out ls) (hloose : Tree.Loose least ls) :
    Agrees text depth c (Cursor.Faces text out) some
      ((c.atDepth text depth).operators inner least (some t)) (Tree.refuseParen t ls) := by
  have hweak : ∀ k, c.operator? = some (.connective k) → k.strength < least.strength := by
    intro k hop
    obtain ⟨l, tail, rfl, hl⟩ := hc.operator?_eq_some_iff.mp hop
    exact Nat.lt_of_not_le fun hk ↦ hloose k hk l rfl hl
  by_cases hparen : c.operator? = some .leftParen
  · obtain ⟨⟨start, token⟩, tail, rfl, rfl⟩ := hc.operator?_eq_some_iff.mp hparen
    obtain rfl : start = c := hc.start_eq
    have hpeek := Cursor.operator?_atDepth hc.standsIn depth
    rw [operators_of_operator hc hparen, Parser.operator_of_not_connective hpeek hweak,
      Parser.group_of_seen (hparen ▸ hpeek)]
    exact .refused (.refl _)
  · have hnoparen : Tree.NoParen ls := by
      intro l hl hop
      obtain ⟨tail, rfl⟩ := List.head?_eq_some_iff.mp hl
      exact hparen (hc.operator?_eq_some_iff.mpr ⟨l, tail, rfl, hop⟩)
    rw [operators_of_stop hc hweak hparen, Tree.refuseParen_eq_ok_iff.mpr ⟨rfl, rfl, hnoparen⟩]
    exact .read (.refl c) hc

/-- **Behind an operand.** -/
theorem operators_agrees (hcov : Tree.Covers deeper n) (hm : Mirrors text out depth inner deeper)
    (hc : c.Leaves text out ls) :
    Agrees text depth c (Cursor.Faces text out) some
      ((c.atDepth text depth).operators inner least (some t))
      (Tree.readJoins deeper least t ls) := by
  induction hr : (c.atDepth text depth).remaining using Nat.strong_induction_on
    generalizing c t ls with
  | _ r ih =>
  have hcd : c.Precedes c.skipBlanks := Cursor.precedes_skipBlanks c
  have hfaces : c.skipBlanks.Faces text out ls := hc.faces
  refine Agrees.mono hcd ?_
  rw [operators_skipBlanks hc.standsIn]
  by_cases hconn : ∃ k : Connective, least.strength ≤ k.strength ∧
      ∃ l tail, ls = l :: tail ∧ l.token = .operator (.connective k)
  · obtain ⟨k, hk, l, tail, rfl, hl⟩ := hconn
    have hop : c.skipBlanks.operator? = some (.connective k) :=
      hfaces.operator?_eq_some_iff.mpr ⟨l, tail, rfl, hl⟩
    have hpeek := Cursor.operator?_atDepth hfaces.standsIn depth
    rw [Tree.readJoins_cons hcov hl hk]
    refine operators_of_taken hfaces hop ?_ fun d t rest hd hrest ↦ ih _ ?_ hrest rfl
    · rw [Parser.operator_of_connective (hop ▸ hpeek) hk]
      exact join_agrees hm hfaces hl
    · calc (d.atDepth text depth).remaining
          < (c.skipBlanks.atDepth text depth).remaining :=
            Cursor.remaining_lt hfaces.standsIn hop hd
        _ ≤ (c.atDepth text depth).remaining := Cursor.remaining_le hcd
        _ = r := hr
  · have hloose : Tree.Loose least ls := by
      intro k hk l hl hop
      obtain ⟨tail, rfl⟩ := List.head?_eq_some_iff.mp hl
      exact hconn ⟨k, hk, l, tail, rfl, hop⟩
    rw [Tree.readJoins_of_loose hloose]
    exact operators_of_loose hfaces hloose

/-! ## Levels -/

theorem atom_of_error {e : SyntaxError} (h : c.StandsIn text) (hnext : c.next = (.error e, d)) :
    (c.atDepth text depth).atom = some (.error e, d.atDepth text depth) := by
  rw [Parser.atom, Cursor.next_atDepth h hnext]
  rfl

theorem atom_of_none (h : c.StandsIn text) (hnext : c.next = (.ok none, d)) :
    (c.atDepth text depth).atom = some (.ok none, c.atDepth text depth) := by
  rw [Parser.atom, Cursor.next_atDepth h hnext]
  rfl

theorem atom_of_operand (h : c.StandsIn text) (hnext : c.next = (.ok (some l), d))
    (hl : l.token.operand? = some t) :
    (c.atDepth text depth).atom = some (.ok (some t), d.atDepth text depth) := by
  obtain ⟨start, token⟩ := l
  rw [Parser.atom, Cursor.next_atDepth h hnext]
  cases token with
  | name s => cases hl; rfl
  | quoted s => cases hl; rfl
  | operator op => cases hl

/-- An operator is no operand, so that it stays at the cursor. -/
theorem atom_of_operator (h : c.StandsIn text) (hnext : c.next = (.ok (some l), d))
    (hl : l.token = .operator op) :
    (c.atDepth text depth).atom = some (.ok none, c.atDepth text depth) := by
  obtain ⟨start, token⟩ := l
  cases hl
  rw [Parser.atom, Cursor.next_atDepth h hnext]
  rfl

/-- Where no blanks are left to skip, a level begins with the token at the cursor. -/
theorem level_of_atom {p : Parser} (hc : c.Faces text out ls)
    (hatom : (c.atDepth text depth).atom = some (.ok operand, p)) :
    Parser.level inner (c.atDepth text depth) least false =
      (p.operators inner least operand).bind (Parser.finish false) := by
  rw [Parser.level, Parser.expression, Cursor.skipBlanks_atDepth hc.standsIn, hc.front, hatom]
  rfl

theorem finish_agrees {answer : Option (Parser.Parsed (Option Tree))}
    {reading : Except SyntaxError (Tree × List Lexeme)}
    (h : Agrees text depth c (Cursor.Faces text out) some answer reading) :
    Agrees text depth c (Cursor.Faces text out) id (answer.bind (Parser.finish false))
      (Tree.certain reading) := by
  cases h with
  | refused hd => exact .refused hd
  | read hd hfaces =>
    simp only [Option.bind_some, Parser.finish]
    exact .read hd hfaces

theorem finish_of_end (hc : c.Faces text .finished []) (whole : Bool) :
    Parser.finish whole (.ok operand, c.atDepth text depth) =
      some (.ok operand, c.atDepth text depth) := by
  have hend : (c.atDepth text depth).cursor.atEnd :=
    (Cursor.atEnd_atDepth hc.standsIn).trans (hc.atEnd_iff.mpr ⟨rfl, rfl⟩)
  rw [Parser.finish, if_neg fun h ↦ h.2 hend]

theorem finish_of_more {whole : Bool} (hc : c.Faces text out ls)
    (hmore : ¬ (ls = [] ∧ out = .finished)) (h : whole ∨ operand = none) :
    Parser.finish whole (.ok operand, c.atDepth text depth) =
      some (.error c.unexpectedHere, c.atDepth text depth) := by
  have hend : ¬ (c.atDepth text depth).cursor.atEnd := by
    rw [Cursor.atEnd_atDepth hc.standsIn, hc.atEnd_iff]
    exact hmore
  have hhere : (c.atDepth text depth).cursor.unexpectedHere? = some c.unexpectedHere :=
    hc.standsIn.unexpectedHere?_inBytes
  rw [Parser.finish, if_pos ⟨h, hend⟩, hhere]
  rfl

theorem level_of_nil (hc : c.Faces text out []) :
    Agrees text depth c (Cursor.Faces text out) id
      (Parser.level inner (c.atDepth text depth) least false)
      (Tree.readLevel out deeper least []) := by
  cases out with
  | finished =>
    have hend : c.atEnd := hc.atEnd_iff.mpr ⟨rfl, rfl⟩
    have hnext : c.next = (.ok none, c) := by rw [Cursor.next, hc.front, if_pos hend]
    have hop : ∀ op, c.operator? ≠ some op := by
      intro op hop
      obtain ⟨l, tail, hcons, -⟩ := hc.operator?_eq_some_iff.mp hop
      cases hcons
    rw [level_of_atom hc (atom_of_none hc.standsIn hnext),
      operators_of_stop hc (fun k h ↦ absurd h (hop _)) (hop _), Option.bind_some, finish_of_end hc]
    exact .read (.refl c) hc
  | failed start e =>
    obtain ⟨-, d, hnext⟩ := Cursor.ending_eq_failed_iff.mp (Cursor.yields_nil_iff.mp hc.yields).2
    rw [Parser.level, Parser.expression, Cursor.skipBlanks_atDepth hc.standsIn, hc.front,
      atom_of_error hc.standsIn hnext]
    exact .refused (Cursor.precedes_of_next hnext)

/-- A level whose operand is a single token. -/
theorem level_of_operand (hcov : Tree.Covers deeper n) (hm : Mirrors text out depth inner deeper)
    (hc : c.Faces text out (l :: tail)) (hl : l.token.operand? = some t) :
    Agrees text depth c (Cursor.Faces text out) id
      (Parser.level inner (c.atDepth text depth) least false)
      (Tree.readLevel out deeper least (l :: tail)) := by
  obtain ⟨d, hnext, hd⟩ := Cursor.yields_cons_iff.mp hc.yields
  have hcd : c.Precedes d := Cursor.precedes_of_next hnext
  refine Agrees.mono hcd ?_
  rw [level_of_atom hc (atom_of_operand hc.standsIn hnext hl),
    Tree.readLevel_of_certain (Tree.readOperand_of_operand? hl)]
  exact finish_agrees (operators_agrees hcov hm ⟨hc.standsIn.precedes hcd, hd⟩)

/-- A level that begins with an operator. -/
theorem level_of_operator (hcov : Tree.Covers deeper n) (hm : Mirrors text out depth inner deeper)
    (hc : c.Faces text out (⟨c, .operator op⟩ :: tail)) :
    Agrees text depth c (Cursor.Faces text out) id
      (Parser.level inner (c.atDepth text depth) least false)
      (Tree.readLevel out deeper least (⟨c, .operator op⟩ :: tail)) := by
  obtain ⟨d, hnext, hd⟩ := Cursor.yields_cons_iff.mp hc.yields
  have hop : c.operator? = some op := hc.operator?_eq_some_iff.mpr ⟨_, tail, rfl, rfl⟩
  have hpeek := Cursor.operator?_atDepth hc.standsIn depth
  rw [hop] at hpeek
  have hlevel : Parser.level inner (c.atDepth text depth) least false =
      ((c.atDepth text depth).operators inner least none).bind (Parser.finish false) :=
    level_of_atom hc (atom_of_operator hc.standsIn hnext rfl)
  have hstray (hweak : ∀ k, op = .connective k → k.strength < least.strength)
      (hparen : op ≠ .leftParen) : Parser.level inner (c.atDepth text depth) least false =
        some (.error c.unexpectedHere, c.atDepth text depth) := by
    rw [hlevel, operators_of_stop hc, Option.bind_some, finish_of_more hc (by simp) (.inr rfl)]
    · exact fun k hk ↦ hweak k (Option.some.inj (hop.symm.trans hk))
    · exact fun hk ↦ hparen (Option.some.inj (hop.symm.trans hk))
  cases op with
  | connective k =>
    by_cases hk : least.strength ≤ k.strength
    · rw [hlevel, operators_of_operator hc hop, Parser.operator_of_connective hpeek hk]
      simp only [Tree.readLevel, Tree.readOperand, if_pos hk]
      exact .refused (.refl c)
    · rw [hstray (fun _ heq ↦ by cases heq; exact Nat.lt_of_not_le hk) (by simp)]
      simp only [Tree.readLevel, Tree.readOperand, if_neg hk]
      exact .refused (.refl c)
  | rightParen =>
    rw [hstray (by simp) (by simp)]
    exact .refused (.refl c)
  | leftParen =>
    obtain ⟨reading, hread, henclose⟩ := enclose_agrees least hm hc
    rw [hlevel, Tree.readLevel_of_certain hread]
    refine finish_agrees (operators_of_taken hc hop ?_ fun d t rest _ ↦ operators_agrees hcov hm)
    rw [Parser.operator_of_not_connective hpeek (by simp), Parser.group_of_seen hpeek]
    exact henclose

/-- **A level**, given the next deeper one. -/
theorem level_agrees (hcov : Tree.Covers deeper n) (hm : Mirrors text out depth inner deeper)
    (hc : c.Leaves text out ls) :
    Agrees text depth c (Cursor.Faces text out) id
      (Parser.level inner (c.atDepth text depth) least false)
      (Tree.readLevel out deeper least ls) := by
  have hfaces : c.skipBlanks.Faces text out ls := hc.faces
  have hlevel : Parser.level inner (c.atDepth text depth) least false =
      Parser.level inner (c.skipBlanks.atDepth text depth) least false := by
    rw [Parser.level, Parser.level, Parser.expression, Parser.expression,
      Cursor.skipBlanks_atDepth hc.standsIn, Cursor.skipBlanks_atDepth hfaces.standsIn,
      Cursor.skipBlanks_skipBlanks]
  refine Agrees.mono (Cursor.precedes_skipBlanks c) ?_
  rw [hlevel]
  obtain _ | ⟨⟨start, token⟩, tail⟩ := ls
  · exact level_of_nil hfaces
  obtain rfl : start = c.skipBlanks := hfaces.start_eq
  cases token with
  | name s => exact level_of_operand hcov hm hfaces rfl
  | quoted s => exact level_of_operand hcov hm hfaces rfl
  | operator op => exact level_of_operator hcov hm hfaces

/-- **All levels.** -/
theorem next_agrees (least : Connective) (h : depth + n = Tree.maxLevels)
    (hc : c.Leaves text out ls) :
    Agrees text depth c (Cursor.Faces text out) id
      (Parser.next (n + 1) (c.atDepth text depth) least false)
      (Tree.readLevels out n least ls) := by
  induction n generalizing depth c least ls with
  | zero => exact level_agrees Tree.covers_none h hc
  | succ n ih =>
    have hdepth : depth < Tree.maxLevels := by omega
    exact level_agrees (Tree.covers_readLevels n) ⟨hdepth, fun _ k _ ↦ ih k (by omega)⟩ hc

end Levels

/-! ## Whole texts -/

/-- What must be read as a whole is first read like anything else. -/
theorem level_whole (inner : Parser.Next) (p : Parser) (least : Connective) :
    Parser.level inner p least true =
      (Parser.level inner p least false).bind (Parser.finish true) := by
  have htwice : ∀ answer, Parser.finish true answer =
      (Parser.finish false answer).bind (Parser.finish true) := by
    rintro ⟨e | operand, q⟩
    · rfl
    by_cases hstop : operand = none ∧ ¬ q.cursor.atEnd
    · have hfalse : (false = true ∨ operand = none) ∧ ¬ q.cursor.atEnd := ⟨.inr hstop.1, hstop.2⟩
      have htrue : (true = true ∨ operand = none) ∧ ¬ q.cursor.atEnd := ⟨.inr hstop.1, hstop.2⟩
      rw [Parser.finish, Parser.finish, if_pos htrue, if_pos hfalse]
      cases q.cursor.unexpectedHere? <;> rfl
    · have hfalse : ¬ ((false = true ∨ operand = none) ∧ ¬ q.cursor.atEnd) := by simpa using hstop
      rw [Parser.finish.eq_def false]
      simp only [if_neg hfalse, Option.bind_some]
  rw [Parser.level, Parser.level, Option.bind_assoc]
  exact Option.bind_congr fun answer _ ↦ htwice answer

/-- **Climbing reads what the library reads**, and always has an answer. -/
theorem parse_eq_read (text : List Char) (offset : Nat) :
    Parser.parse text offset = some (Tree.read text offset) := by
  rcases hscan : (Cursor.start text offset).lexemes with ⟨ls, last⟩
  have hleaves : (Cursor.start text offset).Leaves text last.ending ls :=
    ⟨Cursor.standsIn_start text offset, by rw [Cursor.Yields, hscan]; exact ⟨rfl, rfl⟩⟩
  have hagrees := next_agrees .or (Nat.zero_add _) hleaves
  have hwhole : Parser.next (Tree.maxLevels + 1) (Parser.start text offset) .or true =
      (Parser.next (Tree.maxLevels + 1) ((Cursor.start text offset).atDepth text 0) .or false).bind
        (Parser.finish true) := level_whole _ _ _
  rw [Parser.parse, hwhole, Tree.read, hscan]
  generalize Parser.next _ _ _ false = answer at hagrees ⊢
  generalize hread : Tree.readLevels _ _ _ _ = reading at hagrees ⊢
  cases hagrees with
  | refused hd => simp only [hread]; rfl
  | @read d operand rest hcd hd =>
    simp only [hread, id, Option.bind_some]
    obtain _ | t := operand
    · obtain ⟨rfl, hfinished⟩ := Tree.readLevels_eq_ok_none hread
      rw [hfinished, Tree.readLevels_nil] at hread
      cases hread
      rw [hfinished] at hd
      simp only [finish_of_end hd]
      rfl
    obtain _ | ⟨l, rest⟩ := rest
    · cases hending : last.ending with
      | finished =>
        rw [hending] at hd
        rw [finish_of_end hd]
        rfl
      | failed start e =>
        rw [hending] at hd
        have hfailed := Cursor.ending_eq_failed_iff.mp (Cursor.yields_nil_iff.mp hd.yields).2
        rw [finish_of_more hd (by simp) (.inl rfl), hfailed.1, hd.front]
        rfl
    · obtain ⟨start, token⟩ := l
      obtain rfl : start = d := hd.start_eq
      rw [finish_of_more hd (by simp) (.inl rfl)]
      rfl

end Interpolation
