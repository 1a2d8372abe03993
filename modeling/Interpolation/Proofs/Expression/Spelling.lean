import Interpolation.Proofs.Expression.Scanning

/-!
# How tokens are spelled

A scanning step takes the characters of one token off the text, and takes as many of them as it can.
`next_eq_some_iff` says so without mentioning how the step looks for them: the token is spelled at
the cursor, and what follows cannot continue it.

Where a step fails, the error names a text that stands at the cursor. The one exception is a hyphen
at the end of a name, which is blamed although the name before it has been passed.
-/

namespace Interpolation

open Text

/-! ## Runs of characters -/

theorem Text.takeWhile_dropWhile_append {p : Char → Bool} {xs ys : List Char} (hx : ∀ x ∈ xs, p x)
    (hy : ∀ y ∈ ys.head?, ¬ p y) :
    (xs ++ ys).takeWhile p = xs ∧ (xs ++ ys).dropWhile p = ys := by
  rw [List.takeWhile_append_of_pos hx, List.dropWhile_append_of_pos hx]
  cases ys with
  | nil => exact ⟨List.append_nil xs, rfl⟩
  | cons y ys =>
    have hpy : ¬ p y := hy y rfl
    rw [List.takeWhile_cons_of_neg hpy, List.dropWhile_cons_of_neg hpy]
    exact ⟨List.append_nil xs, rfl⟩

theorem Text.not_of_mem_head?_dropWhile {p : Char → Bool} {cs : List Char} :
    ∀ x ∈ (cs.dropWhile p).head?, ¬ p x := by
  intro x hx
  have h := List.head?_dropWhile_not p cs
  rw [hx] at h
  simp [h]

/-! ## Quoted texts -/

/-- A quoted text ends at a quote that is not written twice. -/
theorem closeQuote?_eq_some_iff {cs s rest : List Char} :
    closeQuote? cs = some (s, rest) ↔
      cs = doubleQuotes s ++ '\'' :: rest ∧ ∀ c ∈ rest.head?, c ≠ '\'' := by
  constructor
  · intro h
    fun_induction closeQuote? cs generalizing s with
    | case1 => cases h
    | case2 cs ih =>
      obtain ⟨⟨s', rest'⟩, hs, heq⟩ := Option.map_eq_some_iff.mp h
      cases heq
      obtain ⟨hcs, hrest⟩ := ih hs
      exact ⟨by rw [hcs, doubleQuotes, if_pos rfl]; rfl, hrest⟩
    | case3 cs hne =>
      cases h
      refine ⟨rfl, ?_⟩
      rintro c hc rfl
      obtain ⟨tail, htail⟩ := List.head?_eq_some_iff.mp hc
      exact hne tail rfl htail
    | case4 c cs hne hc ih =>
      obtain ⟨⟨s', rest'⟩, hs, heq⟩ := Option.map_eq_some_iff.mp h
      cases heq
      obtain ⟨hcs, hrest⟩ := ih hs
      exact ⟨by rw [hcs, doubleQuotes, if_neg hc]; rfl, hrest⟩
  · rintro ⟨rfl, hrest⟩
    induction s with
    | nil =>
      rw [doubleQuotes, List.nil_append, closeQuote?, if_pos rfl]
      rintro tail - rfl
      exact hrest '\'' rfl rfl
    | cons c s ih =>
      by_cases hc : c = '\''
      · rw [doubleQuotes, if_pos hc, List.cons_append, List.cons_append, closeQuote?, ih, hc]
        rfl
      · rw [doubleQuotes, if_neg hc, List.cons_append, closeQuote?, if_neg hc, ih]
        · rfl
        · exact fun _ hq _ ↦ hc hq

/-! ## Tokens -/

namespace Token

/-- The characters of a token. -/
def text : Token → List Char
  | name s => s.toList
  | quoted s => quote s.toList
  | operator op => op.symbol.toList

/-- A name has characters of names only, at least one, and does not end in a hyphen. Nothing is
asked of other tokens. -/
def Valid : Token → Prop
  | name s => s.toList ≠ [] ∧ (∀ c ∈ s.toList, isNameChar c) ∧ s.toList.getLast? ≠ some '-'
  | _ => True

/-- What follows the token cannot continue it. -/
def EndsBefore (rest : List Char) : Token → Prop
  | name _ => ∀ c ∈ rest.head?, ¬ isNameChar c
  | quoted _ => ∀ c ∈ rest.head?, c ≠ '\''
  | operator _ => True

theorem isNameChar_ne_quote {x : Char} (h : isNameChar x) : x ≠ '\'' := by
  rintro rfl
  exact absurd h (by decide)

theorem not_isBlank_of_isNameChar {x : Char} (h : isNameChar x) : ¬ isBlank x := by
  intro hb
  simp only [isBlank, Bool.or_eq_true, decide_eq_true_eq] at hb
  rcases hb with ((rfl | rfl) | rfl) | rfl <;> exact absurd h (by decide)

/-- The first character of a token is no blank, and decides its kind. -/
theorem exists_text_eq_cons {tok : Token} (h : tok.Valid) : ∃ x xs, tok.text = x :: xs ∧
    ¬ isBlank x ∧ (x = '\'' → ∃ s, tok = quoted s) ∧ (isNameChar x → ∃ s, tok = name s) := by
  cases tok with
  | name s =>
    obtain ⟨hne, hall, -⟩ := h
    obtain ⟨x, xs, hs⟩ := List.exists_cons_of_ne_nil hne
    have hx : isNameChar x := hall x (by rw [hs]; exact List.mem_cons_self)
    exact ⟨x, xs, hs, not_isBlank_of_isNameChar hx, fun hq ↦ absurd hq (isNameChar_ne_quote hx),
      fun _ ↦ ⟨s, rfl⟩⟩
  | quoted s =>
    exact ⟨'\'', _, rfl, by decide, fun _ ↦ ⟨s, rfl⟩, fun hx ↦ absurd hx (by decide)⟩
  | operator op =>
    rcases op with (_ | _ | _) | _ | _ <;>
      exact ⟨_, _, rfl, by decide, fun hx ↦ absurd hx (by decide), fun hx ↦ absurd hx (by decide)⟩

theorem text_ne_nil {tok : Token} (h : tok.Valid) : tok.text ≠ [] := by
  obtain ⟨x, xs, htext, -⟩ := exists_text_eq_cons h
  rw [htext]
  exact List.cons_ne_nil x xs

variable {tok : Token} {out new : List Char}

/-- Whether a token ends is decided by the next character. -/
theorem endsBefore_append {passed : List Char} (hnew : tok.EndsBefore out → tok.EndsBefore new)
    (h : tok.EndsBefore (passed ++ out)) : tok.EndsBefore (passed ++ new) := by
  cases passed with
  | nil => exact hnew h
  | cons x passed => cases tok <;> exact h

theorem endsBefore_blank {x : Char} (hx : isBlank x) (cs : List Char) :
    tok.EndsBefore (x :: cs) := by
  cases tok with
  | name s =>
    intro y hy hname
    cases hy
    exact not_isBlank_of_isNameChar hname hx
  | quoted s =>
    intro y hy
    cases hy
    rintro rfl
    exact absurd hx (by decide)
  | operator op => trivial

/-- Any two names are continued by the same characters. -/
theorem endsBefore_of_isNameChar {x y : Char} {xs ys : List Char} (hx : isNameChar x)
    (hy : isNameChar y) (h : tok.EndsBefore (x :: xs)) : tok.EndsBefore (y :: ys) := by
  cases tok with
  | name s => exact absurd hx (h x rfl)
  | quoted s =>
    intro z hz
    cases hz
    exact isNameChar_ne_quote hy
  | operator op => trivial

end Token

/-! ## Scanning steps -/

namespace Cursor

variable {c d : Cursor} {l : Lexeme} {e : SyntaxError}

/-- A token is spelled at the cursor `c`, and `d` stands behind it. -/
structure Takes (c : Cursor) (tok : Token) (d : Cursor) : Prop where
  valid : tok.Valid
  rest_eq : c.rest = tok.text ++ d.rest
  ends : tok.EndsBefore d.rest
  past_eq : c.past tok.text d.rest = d

theorem quoted_eq_some_iff :
    c.quoted = (.ok (some l), d) ↔ ∃ s, l = ⟨c, .quoted s⟩ ∧ c.Takes (.quoted s) d := by
  rw [quoted]
  constructor
  · intro h
    split at h
    · rename_i inside hc
      split at h
      · rename_i value after hv
        cases h
        obtain ⟨rfl, hafter⟩ := closeQuote?_eq_some_iff.mp hv
        refine ⟨String.ofList value, rfl, trivial, ?_, hafter, ?_⟩
        · rw [hc, Token.text, String.toList_ofList, quote, List.cons_append, List.append_assoc]
          rfl
        · rw [Token.text, String.toList_ofList]
          rfl
      · cases h
    · cases h
  · rintro ⟨s, rfl, -, hc, hrest, hd⟩
    have hclose : closeQuote? (doubleQuotes s.toList ++ '\'' :: d.rest) = some (s.toList, d.rest) :=
      closeQuote?_eq_some_iff.mpr ⟨rfl, hrest⟩
    rw [Token.text] at hc hd
    rw [quote, List.cons_append, List.append_assoc, List.singleton_append] at hc
    simp only [hc, hclose, String.ofList_toList, hd]

theorem quoted_eq_none_iff : c.quoted = (.ok none, d) ↔ (∀ q ∈ c.rest.head?, q ≠ '\'') ∧ c = d := by
  rw [quoted]
  constructor
  · intro h
    split at h
    · split at h <;> cases h
    · rename_i hne
      cases h
      refine ⟨?_, rfl⟩
      rintro q hq rfl
      obtain ⟨tail, htail⟩ := List.head?_eq_some_iff.mp hq
      exact hne tail htail
  · rintro ⟨hq, rfl⟩
    split
    · rename_i inside hc
      rw [hc] at hq
      exact absurd rfl (hq '\'' rfl)
    · rfl

theorem quoted_eq_error_iff : c.quoted = (.error e, d) ↔
    ∃ inside, c.rest = '\'' :: inside ∧ closeQuote? inside = none ∧ c.unexpected c.rest = e ∧
      c.past c.rest [] = d := by
  rw [quoted]
  constructor
  · intro h
    split at h
    · rename_i inside hc
      split at h
      · cases h
      · rename_i hv
        cases h
        exact ⟨inside, hc, hv, rfl, rfl⟩
    · cases h
  · rintro ⟨inside, hc, hv, rfl, rfl⟩
    simp only [hc, hv]

theorem name_eq_some_iff :
    c.name = (.ok (some l), d) ↔ ∃ s, l = ⟨c, .name s⟩ ∧ c.Takes (.name s) d := by
  rw [name]
  constructor
  · intro h
    split at h
    · cases h
    · cases h
    · rename_i last hlast hne
      cases h
      refine ⟨String.ofList (c.rest.takeWhile isNameChar), rfl, ⟨?_, ?_, ?_⟩, ?_, ?_, ?_⟩
      · rw [String.toList_ofList]
        rintro hnil
        rw [hnil] at hne
        cases hne
      · rw [String.toList_ofList]
        exact List.all_eq_true.mp List.all_takeWhile
      · rw [String.toList_ofList, hne]
        rintro ⟨⟩
        exact hlast rfl
      · rw [Token.text, String.toList_ofList]
        exact List.takeWhile_append_dropWhile.symm
      · exact not_of_mem_head?_dropWhile
      · rw [Token.text, String.toList_ofList]
        rfl
  · rintro ⟨s, rfl, ⟨hne, hall, hlast⟩, hc, hrest, hd⟩
    rw [Token.text] at hc hd
    obtain ⟨htake, hdrop⟩ := takeWhile_dropWhile_append hall hrest
    simp only [hc, htake, hdrop]
    split
    · rename_i hnone
      exact absurd (List.getLast?_eq_none_iff.mp hnone) hne
    · rename_i hyphen
      exact absurd hyphen hlast
    · rw [String.ofList_toList, hd]

theorem name_eq_none_iff :
    c.name = (.ok none, d) ↔ (∀ x ∈ c.rest.head?, ¬ isNameChar x) ∧ c = d := by
  rw [name]
  constructor
  · intro h
    split at h
    · rename_i hnone
      cases h
      refine ⟨?_, rfl⟩
      rw [List.getLast?_eq_none_iff] at hnone
      have hdrop : c.rest.dropWhile isNameChar = c.rest := by
        have happend := List.takeWhile_append_dropWhile (p := isNameChar) (l := c.rest)
        rwa [hnone, List.nil_append] at happend
      rw [← hdrop]
      exact not_of_mem_head?_dropWhile
    · cases h
    · cases h
  · rintro ⟨hc, rfl⟩
    have hnil : ∀ x ∈ ([] : List Char), isNameChar x := fun x hx ↦ by cases hx
    have htake : c.rest.takeWhile isNameChar = [] := (takeWhile_dropWhile_append hnil hc).1
    simp only [htake, List.getLast?_nil]

theorem name_eq_error_iff : c.name = (.error e, d) ↔
    ∃ run after, c.rest = run ++ '-' :: after ∧ (∀ x ∈ run, isNameChar x) ∧
      (∀ x ∈ after.head?, ¬ isNameChar x) ∧ c.past run ('-' :: after) = d ∧
      d.unexpected ['-'] = e := by
  rw [name]
  constructor
  · intro h
    split at h
    · cases h
    · rename_i hlast
      cases h
      obtain ⟨run, hrun⟩ := List.getLast?_eq_some_iff.mp hlast
      have hall : ∀ x ∈ c.rest.takeWhile isNameChar, isNameChar x :=
        List.all_eq_true.mp List.all_takeWhile
      rw [hrun] at hall ⊢
      rw [List.dropLast_concat]
      refine ⟨run, _, ?_, fun x hx ↦ hall x (List.mem_append_left _ hx),
        not_of_mem_head?_dropWhile, rfl, rfl⟩
      rw [← List.singleton_append, ← List.append_assoc, ← hrun, List.takeWhile_append_dropWhile]
    · cases h
  · rintro ⟨run, after, hc, hrun, hafter, rfl, rfl⟩
    have hall : ∀ x ∈ run ++ ['-'], isNameChar x := by
      intro x hx
      rcases List.mem_append.mp hx with hx | hx
      · exact hrun x hx
      · rw [List.mem_singleton.mp hx]
        decide
    obtain ⟨htake, hdrop⟩ := takeWhile_dropWhile_append hall hafter
    rw [List.append_assoc, List.singleton_append, ← hc] at htake hdrop
    simp only [htake, hdrop, List.getLast?_concat, List.dropLast_concat]

theorem operator_eq_some_iff :
    c.operator = (.ok (some l), d) ↔ ∃ op, l = ⟨c, .operator op⟩ ∧ c.Takes (.operator op) d := by
  rw [operator]
  constructor
  · intro h
    split at h
    · rename_i op after ho
      cases h
      exact ⟨op, rfl, trivial, Operator.ofText?_eq_some_iff.mp ho, trivial, rfl⟩
    · cases h
  · rintro ⟨op, rfl, -, hc, -, hd⟩
    rw [Token.text] at hc hd
    simp only [hc, Operator.ofText?_symbol, hd]

theorem operator_eq_error_iff :
    c.operator = (.error e, d) ↔ Operator.ofText? c.rest = none ∧ c.unexpectedHere = e ∧ c = d := by
  rw [operator]
  split
  · rename_i h
    simp [h]
  · rename_i h
    simp [h]

/-! ## The next token -/

theorem Takes.rest_ne_nil {tok : Token} (h : c.Takes tok d) : c.rest ≠ [] := by
  rw [h.rest_eq]
  exact List.append_ne_nil_of_left_ne_nil (Token.text_ne_nil h.valid) _

theorem next_of_rest_eq_nil (h : c.skipBlanks.rest = []) : c.next = (.ok none, c.skipBlanks) := by
  rw [next]
  simp only [atEnd, h, List.isEmpty_nil, if_pos]

theorem next_of_rest_ne_nil (h : c.skipBlanks.rest ≠ []) : c.next =
    match c.skipBlanks.quoted with
    | (.ok none, _) =>
      match c.skipBlanks.name with
      | (.ok none, _) => c.skipBlanks.operator
      | answer => answer
    | answer => answer := by
  have hend : ¬ c.skipBlanks.atEnd = true := by
    rw [atEnd, List.isEmpty_iff]
    exact h
  rw [next]
  exact if_neg hend

/-- **The next token.** It is spelled behind the blanks, as long as it can be. -/
theorem next_eq_some_iff :
    c.next = (.ok (some l), d) ↔ l.start = c.skipBlanks ∧ c.skipBlanks.Takes l.token d := by
  constructor
  · intro h
    by_cases hrest : c.skipBlanks.rest = []
    · rw [next_of_rest_eq_nil hrest] at h
      cases h
    rw [next_of_rest_ne_nil hrest] at h
    split at h
    · split at h
      · obtain ⟨op, rfl, htakes⟩ := operator_eq_some_iff.mp h
        exact ⟨rfl, htakes⟩
      · obtain ⟨s, rfl, htakes⟩ := name_eq_some_iff.mp h
        exact ⟨rfl, htakes⟩
    · obtain ⟨s, rfl, htakes⟩ := quoted_eq_some_iff.mp h
      exact ⟨rfl, htakes⟩
  · obtain ⟨start, tok⟩ := l
    rintro ⟨rfl, htakes⟩
    rw [next_of_rest_ne_nil htakes.rest_ne_nil]
    -- The first character rules out the kinds that are tried before that of the token.
    obtain ⟨x, xs, htext, -, hquote, hname⟩ := Token.exists_text_eq_cons htakes.valid
    have hhead : c.skipBlanks.rest.head? = some x := by
      rw [htakes.rest_eq, htext]
      rfl
    have hquoted : (∀ s, tok ≠ .quoted s) → c.skipBlanks.quoted = (.ok none, c.skipBlanks) := by
      intro hne
      refine quoted_eq_none_iff.mpr ⟨fun q hq heq ↦ ?_, rfl⟩
      rw [hhead] at hq
      obtain ⟨s, hs⟩ := hquote ((Option.some.inj hq).trans heq)
      exact hne s hs
    cases tok with
    | quoted s => simp only [quoted_eq_some_iff.mpr ⟨s, rfl, htakes⟩]
    | name s => simp only [hquoted (by simp), name_eq_some_iff.mpr ⟨s, rfl, htakes⟩]
    | operator op =>
      have hnone : c.skipBlanks.name = (.ok none, c.skipBlanks) := by
        refine name_eq_none_iff.mpr ⟨fun y hy hny ↦ ?_, rfl⟩
        rw [hhead] at hy
        obtain ⟨s, hs⟩ := hname (by rwa [Option.some.inj hy])
        cases hs
      simp only [hquoted (by simp), hnone, operator_eq_some_iff.mpr ⟨op, rfl, htakes⟩]

/-- There is no next token without an error only where nothing but blanks is left. -/
theorem next_eq_none_iff :
    c.next = (.ok none, d) ↔ c.skipBlanks.rest = [] ∧ c.skipBlanks = d := by
  constructor
  · intro h
    by_cases hrest : c.skipBlanks.rest = []
    · rw [next_of_rest_eq_nil hrest] at h
      exact ⟨hrest, congrArg Prod.snd h⟩
    rw [next_of_rest_ne_nil hrest] at h
    split at h
    · split at h
      · rw [operator] at h
        split at h <;> cases h
      · rename_i hne
        exact absurd h (hne d)
    · rename_i hne
      exact absurd h (hne d)
  · rintro ⟨hrest, rfl⟩
    exact next_of_rest_eq_nil hrest

/-- The error names a text that stands at the cursor. -/
def Blames (c : Cursor) (e : SyntaxError) : Prop :=
  ∃ token, token ≠ [] ∧ token <+: c.rest ∧ c.unexpected token = e

theorem blames_unexpectedHere (h : c.rest ≠ []) : c.Blames c.unexpectedHere := by
  refine ⟨c.rest.take 1, fun hnil ↦ h ?_, List.take_prefix 1 c.rest, rfl⟩
  exact (List.take_eq_nil_iff.mp hnil).resolve_left (by decide)

/-- Where there is no next token, the text behind the blanks is blamed, or a hyphen at the end of a
name. -/
theorem blames_of_next_eq_error (h : c.next = (.error e, d)) : c.skipBlanks.Blames e ∨
    ∃ run after, c.skipBlanks.rest = run ++ '-' :: after ∧ (∀ x ∈ run, isNameChar x) ∧
      (c.skipBlanks.past run ('-' :: after)).unexpected ['-'] = e := by
  have hrest : c.skipBlanks.rest ≠ [] := by
    intro hnil
    rw [next_of_rest_eq_nil hnil] at h
    cases h
  rw [next_of_rest_ne_nil hrest] at h
  split at h
  · split at h
    · obtain ⟨-, rfl, -⟩ := operator_eq_error_iff.mp h
      exact .inl (blames_unexpectedHere hrest)
    · obtain ⟨run, after, hrun, hall, -, rfl, rfl⟩ := name_eq_error_iff.mp h
      exact .inr ⟨run, after, hrun, hall, rfl⟩
  · obtain ⟨-, -, -, rfl, -⟩ := quoted_eq_error_iff.mp h
    exact .inl ⟨_, hrest, List.prefix_refl _, rfl⟩

end Cursor

end Interpolation
