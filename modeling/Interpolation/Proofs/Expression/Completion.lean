import Mathlib
import Interpolation.Proofs.Expression.Fault
import Interpolation.Proofs.Expression.Writing

/-!
# Completing what stands before a syntax error

Every refused text is cut in two by its error: what stands before the error can be completed to a
text that is read, and what stands behind it begins with what the error names. The tokens of the
completion are known from the fault of the reader. They are spelled behind a blank, so that they
cannot continue the last token; only a name that ends in a hyphen goes on without one.
-/

namespace Interpolation

open Text

namespace Tree

/-! ## Completions as texts -/

variable {text : List Char} {offset : Nat}

theorem exists_read_of_lexes {toks : List Token} (h : Lexes text toks [])
    (hmakes : Makes (maxLevels + 1) 0 toks) (offset : Nat) : ∃ t, read text offset = .ok t := by
  obtain ⟨t, rfl, hcan, -, hn⟩ := hmakes
  exact ⟨t, read_of_lexes h hcan (Nat.le_of_lt_succ hn) offset⟩

theorem lexes_closings (m : Nat) : Lexes (List.replicate m ')') (closings m) [] := by
  have hnone : ∀ x ∈ ([] : List Char), isBlank x := fun x hx ↦ by cases hx
  induction m with
  | zero => exact .nil hnone
  | succ m ih =>
    have hparen : (Token.operator .rightParen).Valid := trivial
    have hends : (Token.operator .rightParen).EndsBefore (List.replicate m ')') := trivial
    exact .cons hnone hparen hends ih

/-- With a letter at its end, any run of characters of names is a name. -/
theorem valid_name_letter {run : List Char} (hrun : ∀ x ∈ run, isNameChar x) :
    (Token.name (String.ofList (run ++ ['a']))).Valid := by
  refine ⟨by simp, fun x hx ↦ ?_, by simp⟩
  rw [String.toList_ofList] at hx
  rcases List.mem_append.mp hx with hx | hx
  · exact hrun x hx
  · rw [List.mem_singleton.mp hx]
    decide

theorem lexes_name_closings {s : String} (h : (Token.name s).Valid) (m : Nat) :
    Lexes (s.toList ++ List.replicate m ')') (.name s :: closings m) [] := by
  have hnone : ∀ x ∈ ([] : List Char), isBlank x := fun x hx ↦ by cases hx
  have hends : (Token.name s).EndsBefore (List.replicate m ')') := by
    intro x hx
    cases m with
    | zero => cases hx
    | succ m =>
      cases hx
      decide
  exact .cons hnone h hends (lexes_closings m)

/-- What begins an expression is the beginning of a text that is read. -/
theorem exists_read_of_begins {before after : List Char} {toks : List Token}
    (hlexes : Lexes (before ++ after) toks after) (h : Begins (maxLevels + 1) 0 toks)
    (offset : Nat) : ∃ more t, read (before ++ more) offset = .ok t := by
  have hblank : isBlank ' ' := by decide
  -- After a blank the completion cannot continue the last token.
  have hcomplete : ∀ {new : List Char} {suffix : List Token}, Lexes new suffix [] →
      Makes (maxLevels + 1) 0 (toks ++ suffix) →
        ∃ more t, read (before ++ more) offset = .ok t := by
    intro new suffix hnew hmakes
    obtain ⟨passed, heq, hpassed⟩ :=
      hlexes.replace fun tok _ ↦ Token.endsBefore_blank hblank new
    obtain rfl : before = passed := List.append_cancel_right heq
    obtain ⟨t, ht⟩ := exists_read_of_lexes (hpassed.trans (hnew.blank hblank)) hmakes offset
    exact ⟨' ' :: new, t, ht⟩
  cases h with
  | complete m hmakes => exact hcomplete (lexes_closings m) hmakes
  | operandDue m hmakes =>
    have hrun : ∀ x ∈ ([] : List Char), isNameChar x := fun x hx ↦ by cases hx
    exact hcomplete (lexes_name_closings (valid_name_letter hrun) m) (hmakes _)

/-- What ends in a hyphen is the beginning of a longer name. -/
theorem exists_read_of_hyphen {before run after : List Char} {toks : List Token} {m : Nat}
    (hlexes : Lexes (before ++ (run ++ '-' :: after)) toks (run ++ '-' :: after))
    (hrun : ∀ x ∈ run, isNameChar x)
    (hmakes : ∀ s, Makes (maxLevels + 1) 0 (toks ++ .name s :: closings m)) (offset : Nat) :
    ∃ more t, read (before ++ run ++ more) offset = .ok t := by
  have hnew := lexes_name_closings (valid_name_letter hrun) m
  rw [String.toList_ofList] at hnew
  -- The longer name begins with a character of names, as the run with the hyphen does.
  have hends : ∀ tok : Token, tok.EndsBefore (run ++ '-' :: after) →
      tok.EndsBefore (run ++ ['a'] ++ List.replicate m ')') := by
    intro tok htok
    cases run with
    | nil => exact Token.endsBefore_of_isNameChar (by decide) (by decide) htok
    | cons x run =>
      have hx : isNameChar x := hrun x List.mem_cons_self
      exact Token.endsBefore_of_isNameChar hx hx htok
  obtain ⟨passed, heq, hpassed⟩ := hlexes.replace hends
  obtain rfl : before = passed := List.append_cancel_right heq
  obtain ⟨t, ht⟩ := exists_read_of_lexes (hpassed.trans hnew) (hmakes _) offset
  exact ⟨['a'] ++ List.replicate m ')', t, by simpa using ht⟩

end Tree

/-! ## Where the error stands -/

/-- The error stands between `before` and `after`: at the byte where `before` ends it names a
beginning of `after`. -/
def SyntaxError.StandsBetween (e : SyntaxError) (offset : Nat) (before after : List Char) : Prop :=
  ∃ token, token ≠ [] ∧ token <+: after ∧
    e = .unexpectedToken (String.ofList token) (offset + byteLength before)

namespace Tree

variable {text : List Char} {offset : Nat} {e : SyntaxError} {last : Cursor} {ls : List Lexeme}

theorem standsBetween_of_blames {before after : List Char}
    (h : ((Cursor.start text offset).past before after).Blames e) :
    e.StandsBetween offset before after := by
  obtain ⟨token, hne, hprefix, rfl⟩ := h
  refine ⟨token, hne, hprefix, ?_⟩
  simp [Cursor.unexpected, Cursor.absolute, Cursor.past, Cursor.start]

/-- The text before a lexeme spells the lexemes that precede it. -/
theorem exists_before_front {taken rest : List Lexeme}
    (hscan : (Cursor.start text offset).lexemes = (taken ++ rest, last)) :
    ∃ before, text = before ++ (Cursor.front last rest).rest ∧
      (Cursor.start text offset).past before (Cursor.front last rest).rest =
        Cursor.front last rest ∧
      Lexes (before ++ (Cursor.front last rest).rest) (taken.map Lexeme.token)
        (Cursor.front last rest).rest := by
  obtain ⟨hlexes, before, htext, hfront⟩ := Cursor.lexes_front hscan
  exact ⟨before, htext, hfront, htext ▸ hlexes⟩

theorem exists_completion_of_begins {taken rest : List Lexeme}
    (hscan : (Cursor.start text offset).lexemes = (taken ++ rest, last))
    (hb : (Cursor.front last rest).Blames e)
    (hbegins : Begins (maxLevels + 1) 0 (taken.map Lexeme.token)) :
    ∃ before after, text = before ++ after ∧ e.StandsBetween offset before after ∧
      ∃ more t, read (before ++ more) offset = .ok t := by
  obtain ⟨before, htext, hfront, hlexes⟩ := exists_before_front hscan
  rw [← hfront] at hb
  exact ⟨before, _, htext, standsBetween_of_blames hb, exists_read_of_begins hlexes hbegins offset⟩

theorem exists_completion_of_fault (hscan : (Cursor.start text offset).lexemes = (ls, last))
    (h : Fault last (maxLevels + 1) 0 ls e) :
    ∃ before after, text = before ++ after ∧ e.StandsBetween offset before after ∧
      ∃ more t, read (before ++ more) offset = .ok t := by
  cases h with
  | blamed taken rest hls hb hbegins =>
    rw [hls] at hscan
    exact exists_completion_of_begins hscan hb hbegins
  | unscanned start m hend hmakes =>
    obtain ⟨rfl, d, hnext⟩ := Cursor.ending_eq_failed_iff.mp hend
    rw [← List.append_nil ls] at hscan
    rcases Cursor.blames_of_next_eq_error hnext with hb | ⟨run, after, hrest, hrun, rfl⟩
    · exact exists_completion_of_begins hscan hb (.operandDue m hmakes)
    · obtain ⟨before, htext, hfront, hlexes⟩ := exists_before_front hscan
      rw [Cursor.front, hrest] at htext hlexes
      refine ⟨before ++ run, '-' :: after, by rw [htext, List.append_assoc], ?_,
        exists_read_of_hyphen hlexes hrun hmakes offset⟩
      -- The hyphen stands behind the rest of the name.
      refine ⟨['-'], by simp, ⟨after, rfl⟩, ?_⟩
      rw [Cursor.front] at hfront
      rw [← hfront]
      simp [Cursor.unexpected, Cursor.absolute, Cursor.past, Cursor.start]

/-- A text in which nothing but blanks is scanned consists of blanks. -/
theorem isBlank_of_lexemes_eq_nil (hscan : (Cursor.start text offset).lexemes = ([], last))
    (hend : last.ending = .finished) : ∀ x ∈ text, isBlank x := by
  obtain rfl := Cursor.lexemes_eq_nil hscan
  obtain ⟨a, d, hnext⟩ := Cursor.ending_eq_finished_iff.mp hend
  cases a with
  | some l =>
    rw [Cursor.lexemes_of_next_some hnext] at hscan
    cases hscan
  | none =>
    obtain ⟨hnil, -⟩ := Cursor.next_eq_none_iff.mp hnext
    obtain ⟨blanks, hblanks, hrest, -⟩ := (Cursor.start text offset).exists_blanks
    rw [hnil, List.append_nil] at hrest
    have htext : text = blanks := hrest
    rwa [htext]

/-! ## Refused texts -/

/-- **What a refused text looks like.** Either there are only blanks in it, or the error stands
behind the beginning of some expression. -/
theorem read_eq_error (h : read text offset = .error e) :
    (e = .expressionExpected offset ∧ ∀ x ∈ text, isBlank x) ∨
      ∃ before after, text = before ++ after ∧ e.StandsBetween offset before after ∧
        ∃ more t, read (before ++ more) offset = .ok t := by
  generalize hscan : (Cursor.start text offset).lexemes = scan
  obtain ⟨ls, last⟩ := scan
  rcases fault_of_read_eq_error hscan h with ⟨rfl, hend, rfl⟩ | hfault
  · exact .inl ⟨rfl, isBlank_of_lexemes_eq_nil hscan hend⟩
  · exact .inr (exists_completion_of_fault hscan hfault)

/-- There is nothing to read just in the texts of blanks. -/
theorem read_eq_expressionExpected_iff {position : Nat} :
    read text offset = .error (.expressionExpected position) ↔
      position = offset ∧ ∀ x ∈ text, isBlank x := by
  constructor
  · intro h
    rcases read_eq_error h with ⟨he, hblank⟩ | ⟨before, after, -, ⟨token, -, -, he⟩, -⟩
    · cases he
      exact ⟨rfl, hblank⟩
    · cases he
  · rintro ⟨rfl, hblank⟩
    have hrest : (Cursor.start text position).skipBlanks.rest = [] := by
      have hnone : ∀ x ∈ ([] : List Char).head?, ¬ isBlank x := fun x hx ↦ by cases hx
      have hdrop := (takeWhile_dropWhile_append hblank hnone).2
      rwa [List.append_nil] at hdrop
    have hnext := Cursor.next_of_rest_eq_nil hrest
    have hscan := Cursor.lexemes_of_next_ne_some (c := Cursor.start text position) (by simp [hnext])
    have hend := Cursor.ending_eq_finished_iff.mpr ⟨_, _, hnext⟩
    rw [read, hscan]
    simp only [hend, readLevels_nil]

/-- **No error is reported too late.** What stands before the position of a syntax error is a part
of the text, and the beginning of another text that is read as an expression. -/
theorem exists_completion_of_unexpectedToken {token : String} {position : Nat}
    (h : read text offset = .error (.unexpectedToken token position)) :
    ∃ before after, text = before ++ after ∧ position = offset + byteLength before ∧
      ∃ more t, read (before ++ more) offset = .ok t := by
  rcases read_eq_error h with ⟨hne, -⟩ | ⟨before, after, htext, ⟨tok, -, -, he⟩, hmore⟩
  · cases hne
  · cases he
    exact ⟨before, after, htext, rfl, hmore⟩

set_option maxRecDepth 4000 in
/-- A hyphen that ends a name in parentheses, behind a letter of two bytes and an operator. -/
theorem exists_completion_of_hyphen_in_group :
    read "'é' && (b-".toList 7 = .error (.unexpectedToken "-" 17) ∧
      ∃ before after, "'é' && (b-".toList = before ++ after ∧ 17 = 7 + byteLength before ∧
        ∃ more t, read (before ++ more) 7 = .ok t := by
  have h : read "'é' && (b-".toList 7 = .error (.unexpectedToken "-" 17) := by
    cbv
  exact ⟨h, exists_completion_of_unexpectedToken h⟩

end Tree

end Interpolation
