import Interpolation.Proofs.Expression.Grammar
import Interpolation.Proofs.Expression.Lexing

/-!
# What is read before a syntax error

The reader of expressions complains at the first place where the text cannot go on: the tokens that
were read before that place still begin an expression. They can be completed by closing parentheses
and, where an operand is due, by a name in front of them.

## Why closing is enough

Whatever the reader has read so far, the parts of it that are complete are subtrees that fit
already, and each part that is not complete waits for one operand only. So a beginning is completed
from the inside: a completed content makes a completed group, a completed right-hand side makes a
completed join. None of this opens a level that the reader had not opened itself, hence the limit is
kept. `Fault` is the statement for the reader of one level, and `Fault.within` the step from one
level to the next.
-/

namespace Interpolation

open Text

namespace Tree

/-! ## Completions -/

/-- Closing parentheses. -/
def closings (m : Nat) : List Token := List.replicate m (.operator .rightParen)

/-- The tokens of a canonical tree of strength `k` with less than `n` levels below it. -/
def Makes (n k : Nat) (toks : List Token) : Prop :=
  ∃ t : Tree, t.tokens = toks ∧ t.Canonical ∧ t.Binds k ∧ t.nesting < n

/-- The tokens can be completed, by closing parentheses or by an operand in front of these. -/
inductive Begins (n k : Nat) (toks : List Token) : Prop where
  | complete (m : Nat) (h : Makes n k (toks ++ closings m))
  | operandDue (m : Nat) (h : ∀ s, Makes n k (toks ++ .name s :: closings m))

variable {n k j m : Nat} {toks : List Token} {t : Tree}

theorem Makes.mono (hjk : j ≤ k) (h : Makes n k toks) : Makes n j toks := by
  obtain ⟨t, ht, hcan, hb, hn⟩ := h
  exact ⟨t, ht, hcan, fun c hc ↦ Nat.le_trans hjk (hb c hc), hn⟩

theorem makes_name (n k : Nat) (s : String) : Makes (n + 1) k [.name s] :=
  ⟨.name s, rfl, trivial, fun _ hc ↦ (by cases hc), Nat.succ_pos n⟩

theorem Makes.group (k : Nat) (h : Makes n 0 toks) :
    Makes (n + 1) k ([.operator .leftParen] ++ toks ++ closings 1) := by
  obtain ⟨t, rfl, hcan, -, hn⟩ := h
  refine ⟨.group t, rfl, hcan, fun _ hc ↦ (by cases hc), ?_⟩
  rw [nesting]
  omega

theorem Makes.join {c : Connective} (hcan : t.Canonical) (hb : t.Binds (c.strength + 1))
    (hn : t.nesting ≤ n) (h : Makes n c.strength toks) :
    Makes (n + 1) c.strength (t.tokens ++ [.operator (.connective c)] ++ toks) := by
  obtain ⟨r, rfl, hcanr, hbr, hnr⟩ := h
  refine ⟨.join c t r, by simp [tokens], canonical_join_iff.mpr ⟨hb, hbr, hcan, hcanr⟩, ?_, ?_⟩
  · intro d hd
    cases hd
    exact Nat.le_refl _
  · rw [nesting]
    omega

/-- A tree is complete as it is. -/
theorem begins_tokens (hcan : t.Canonical) (hb : t.Binds k) (hn : t.nesting < n) :
    Begins n k t.tokens :=
  .complete 0 ⟨t, (List.append_nil _).symm, hcan, hb, hn⟩

theorem begins_nil (n k : Nat) : Begins (n + 1) k [] := .operandDue 0 fun s ↦ makes_name n k s

/-! ## Faults -/

/-- Reading `ls` fails with `e`. Either `e` blames the text behind a beginning, or a beginning needs
an operand where the scan failed with `e`. -/
inductive Fault (last : Cursor) (n k : Nat) (ls : List Lexeme) (e : SyntaxError) : Prop where
  | blamed (taken rest : List Lexeme) (hls : ls = taken ++ rest)
      (hb : (Cursor.front last rest).Blames e) (h : Begins n k (taken.map Lexeme.token))
  | unscanned (start : Cursor) (m : Nat) (hend : last.ending = .failed start e)
      (h : ∀ s, Makes n k (ls.map Lexeme.token ++ .name s :: closings m))

variable {last : Cursor} {ls rest : List Lexeme} {l : Lexeme} {e : SyntaxError}

theorem closings_append (m j : Nat) : closings m ++ closings j = closings (m + j) :=
  List.replicate_append_replicate

/-- **From the inside to the outside.** A fault stays one if every completion of the inside, with
what stands before it and behind it, completes the outside. -/
theorem Fault.within {n' k' : Nat} {before mid : List Lexeme} (h : Fault last n k mid e)
    (hmakes : ∀ toks, Makes n k toks →
      Makes n' k' (before.map Lexeme.token ++ toks ++ closings j)) :
    Fault last n' k' (before ++ mid) e := by
  cases h with
  | blamed taken rest hls hb hbegins =>
    refine .blamed (before ++ taken) rest (by rw [hls, List.append_assoc]) hb ?_
    rw [List.map_append]
    cases hbegins with
    | complete m h =>
      refine .complete (m + j) ?_
      rw [← closings_append, ← List.append_assoc, List.append_assoc _ _ (closings m)]
      exact hmakes _ h
    | operandDue m h =>
      refine .operandDue (m + j) fun s ↦ ?_
      rw [← closings_append, ← List.cons_append, ← List.append_assoc,
        List.append_assoc _ _ (_ :: _)]
      exact hmakes _ (h s)
  | unscanned start m hend h =>
    refine .unscanned start (m + j) hend fun s ↦ ?_
    rw [List.map_append, ← closings_append, ← List.cons_append, ← List.append_assoc,
      List.append_assoc _ _ (_ :: _)]
    exact hmakes _ (h s)

theorem Fault.mono (hjk : j ≤ k) (h : Fault last n k ls e) : Fault last n j ls e := by
  have hmakes : ∀ toks, Makes n k toks →
      Makes n j (([] : List Lexeme).map Lexeme.token ++ toks ++ closings 0) := by
    intro toks h
    rw [List.map_nil, List.nil_append, closings, List.replicate_zero, List.append_nil]
    exact h.mono hjk
  exact h.within hmakes

/-- Where nothing is read yet, an operand is due. -/
theorem fault_of_blames (h : (Cursor.front last ls).Blames e) : Fault last (n + 1) k ls e :=
  .blamed [] ls rfl h (begins_nil n k)

/-! ## The stages of a level -/

variable {deeper : Option Reader} {least : Connective}

/-- Whatever the reader of the next deeper level fails with is a fault. -/
def Explains (last : Cursor) (n : Nat) (deeper : Option Reader) : Prop :=
  ∀ read, deeper = some read → ∀ (c : Connective) (ls : List Lexeme) (e : SyntaxError),
    (∀ l ∈ ls, l.Spelled) → read c ls = .error e → Fault last n c.strength ls e

theorem explains_none (last : Cursor) : Explains last 0 none := fun _ h ↦ by cases h

theorem readOperand_fault (hd : Explains last n deeper) (hls : ∀ l ∈ ls, l.Spelled)
    (h : readOperand last.ending deeper least ls = .error e) : Fault last (n + 1) 3 ls e := by
  obtain _ | ⟨⟨start, token⟩, tail⟩ := ls
  · cases hend : last.ending with
    | finished => simp [readOperand, hend] at h
    | failed start e' =>
      simp only [readOperand, hend, Except.error.injEq] at h
      exact .unscanned start 0 (h ▸ hend) fun s ↦ makes_name n 3 s
  have hhead : Lexeme.Spelled ⟨start, token⟩ := hls _ List.mem_cons_self
  have htail : ∀ l ∈ tail, l.Spelled := fun l hl ↦ hls l (List.mem_cons_of_mem _ hl)
  cases token with
  | name s => cases h
  | quoted s => cases h
  | operator op =>
    cases op with
    | connective c =>
      simp only [readOperand] at h
      split at h
      · cases h
        exact fault_of_blames hhead.blames_text
      · cases h
        exact fault_of_blames hhead.blames_here
    | rightParen =>
      cases h
      exact fault_of_blames hhead.blames_here
    | leftParen =>
      obtain _ | read := deeper
      · cases h
        exact fault_of_blames hhead.blames_text
      simp only [readOperand] at h
      split at h
      · rename_i e' hr
        cases h
        -- The fault is in the content, whose completion is closed by one more parenthesis.
        have hinside : Fault last n 0 tail e := hd read rfl .or tail e htail hr
        have hmakes : ∀ toks, Makes n 0 toks → Makes (n + 1) 3
            ([⟨start, .operator .leftParen⟩].map Lexeme.token ++ toks ++ closings 1) :=
          fun toks htoks ↦ htoks.group 3
        exact hinside.within hmakes
      · cases h
      · cases h
        exact fault_of_blames hhead.blames_rest

theorem readJoin_eq_error {c : Connective} (h : readJoin deeper c t ls = .error e) :
    ∃ m tail, ls = m :: tail ∧ m.token = .operator (.connective c) ∧
      (e = m.start.unexpected m.token.text ∨
        ∃ read, deeper = some read ∧ read c tail = .error e) := by
  cases ls with
  | nil => cases h
  | cons m tail =>
    rw [readJoin] at h
    split at h
    · rename_i hm
      refine ⟨m, tail, rfl, hm, ?_⟩
      rw [hm, Token.text]
      obtain _ | read := deeper
      · cases h
        exact .inl rfl
      simp only at h
      split at h
      · rename_i hr
        cases h
        exact .inr ⟨read, rfl, hr⟩
      · cases h
        exact .inl rfl
      · cases h
    · cases h

theorem certain_eq_error_iff {answer : Except SyntaxError (Tree × List Lexeme)} :
    certain answer = .error e ↔ answer = .error e := by
  rcases answer with e' | ⟨u, mid⟩ <;> simp [certain]

/-- **The step from one strength to the next.** What fails in a stage that also joins with `c` is
behind a complete left-hand side. -/
theorem thenJoin_fault {c : Connective} {lower : Reading} (hd : Explains last n deeper)
    (hls : ∀ l ∈ ls, l.Spelled) (hlower : ReadsPhrases n (c.strength + 1) ls lower)
    (hfault : ∀ e, lower = .error e → Fault last (n + 1) (c.strength + 1) ls e)
    (h : thenJoin deeper c lower = .error e) : Fault last (n + 1) c.strength ls e := by
  obtain e' | ⟨_ | left, mid⟩ := lower
  · cases h
    exact (hfault e rfl).mono (Nat.le_succ _)
  · cases h
  have hj : readJoin deeper c left mid = .error e := certain_eq_error_iff.mp h
  obtain ⟨m, tail, rfl, hm, he⟩ := readJoin_eq_error hj
  obtain ⟨hp, hn⟩ := (hlower left _).mp ⟨rfl, noParen_of_connective hm⟩
  obtain ⟨taken, rfl, htaken⟩ := hp.consumes
  have hmid : ∀ l ∈ m :: tail, l.Spelled := fun l hl ↦ hls l (List.mem_append_right _ hl)
  rcases he with rfl | ⟨read, hread, hr⟩
  · refine .blamed taken (m :: tail) rfl (hmid m List.mem_cons_self).blames_text ?_
    rw [htaken]
    exact begins_tokens hp.canonical (fun d hd ↦ Nat.le_of_succ_le (hp.binds d hd))
      (Nat.lt_succ_of_le hn)
  · have hright : Fault last n c.strength tail e :=
      hd read hread c tail e (fun l hl ↦ hmid l (List.mem_cons_of_mem m hl)) hr
    have hmakes : ∀ toks, Makes n c.strength toks →
        Makes (n + 1) c.strength ((taken ++ [m]).map Lexeme.token ++ toks ++ closings 0) := by
      intro toks htoks
      rw [List.map_append, htaken, List.map_singleton, hm, closings, List.replicate_zero,
        List.append_nil]
      exact htoks.join hp.canonical hp.binds hn
    have hall := hright.within hmakes
    rwa [List.append_assoc] at hall

theorem joinStages_fault (hc : Covers deeper n) (hd : Explains last n deeper)
    (hls : ∀ l ∈ ls, l.Spelled) (c : Connective)
    (h : joinStages deeper c (readOperand last.ending deeper least ls) = .error e) :
    Fault last (n + 1) c.strength ls e := by
  have hdot : ∀ e, joinStages deeper .dot (readOperand last.ending deeper least ls) = .error e →
      Fault last (n + 1) Connective.dot.strength ls e := fun e ↦
    thenJoin_fault hd hls (fun t rest ↦ readOperand_eq_ok_some_iff hc)
      fun e he ↦ readOperand_fault hd hls he
  have hand : ∀ e, joinStages deeper .and (readOperand last.ending deeper least ls) = .error e →
      Fault last (n + 1) Connective.and.strength ls e := fun e ↦
    thenJoin_fault hd hls (joinStages_readsPhrases hc .dot) hdot
  cases c with
  | dot => exact hdot e h
  | and => exact hand e h
  | or => exact thenJoin_fault hd hls (joinStages_readsPhrases hc .and) hand h

/-! ## The end of a level -/

/-- An opening parenthesis is left over only behind an operand: a right-hand side would have refused
it itself. -/
theorem thenJoin_eq_ok_of_paren {c : Connective} {lower : Reading} (hc : Covers deeper n)
    (hparen : ¬ NoParen rest) (h : thenJoin deeper c lower = .ok (some t, rest)) :
    lower = .ok (some t, rest) := by
  obtain ⟨left, mid, hl, hj⟩ := thenJoin_eq_ok_some_iff.mp h
  rcases readJoin_eq_ok hj with ⟨-, rfl, rfl⟩ | ⟨m, tail, r, read, -, -, hread, hr, -⟩
  · exact hl
  · obtain ⟨hp, -⟩ := (hc c tail r rest).mp ⟨read, hread, hr⟩
    exact absurd hp.stops.noParen hparen

theorem joinStages_eq_ok_of_paren {c : Connective} {operand : Reading} (hc : Covers deeper n)
    (hparen : ¬ NoParen rest) (h : joinStages deeper c operand = .ok (some t, rest)) :
    operand = .ok (some t, rest) := by
  cases c with
  | dot => exact thenJoin_eq_ok_of_paren hc hparen h
  | and => exact thenJoin_eq_ok_of_paren hc hparen (thenJoin_eq_ok_of_paren hc hparen h)
  | or =>
    exact thenJoin_eq_ok_of_paren hc hparen
      (thenJoin_eq_ok_of_paren hc hparen (thenJoin_eq_ok_of_paren hc hparen h))

theorem refuseParen_eq_error (h : refuseParen t ls = .error e) :
    ∃ m tail, ls = m :: tail ∧ m.token = .operator .leftParen ∧
      e = m.start.unexpected m.token.text := by
  unfold refuseParen at h
  split at h
  · cases h
    exact ⟨_, _, rfl, rfl, rfl⟩
  · cases h

theorem readLevel_fault (hc : Covers deeper n) (hd : Explains last n deeper)
    (hls : ∀ l ∈ ls, l.Spelled) (h : readLevel last.ending deeper least ls = .error e) :
    Fault last (n + 1) least.strength ls e := by
  rw [readLevel_eq_endLevel] at h
  rcases hstages : joinStages deeper least (readOperand last.ending deeper least ls) with
    e' | ⟨_ | u, mid⟩
  · rw [hstages] at h
    cases h
    exact joinStages_fault hc hd hls least hstages
  · rw [hstages] at h
    cases h
  · rw [hstages] at h
    have hrefuse : refuseParen u mid = .error e := certain_eq_error_iff.mp h
    obtain ⟨m, tail, rfl, hm, rfl⟩ := refuseParen_eq_error hrefuse
    have hoperand := joinStages_eq_ok_of_paren hc (fun hno ↦ hno m rfl hm) hstages
    obtain ⟨⟨taken, rfl, htaken⟩, hcan, hroot, hn⟩ := readOperand_sound hc hoperand
    have hmspelled : m.Spelled := hls m (List.mem_append_right _ List.mem_cons_self)
    refine .blamed taken (m :: tail) rfl hmspelled.blames_text ?_
    rw [htaken]
    refine begins_tokens hcan (fun d hd ↦ ?_) (Nat.lt_succ_of_le hn)
    rw [hroot] at hd
    cases hd

theorem covers_readLevels {ending : Ending} (n : Nat) :
    Covers (some (readLevels ending n)) (n + 1) := by
  intro c ls t rest
  simp only [Option.some.injEq, exists_eq_left', readLevels_eq_ok_some_iff, Nat.lt_succ_iff]

/-- **All levels.** Whatever the reader fails with is a fault. -/
theorem readLevels_fault : ∀ {n : Nat} {least : Connective} {ls : List Lexeme} {e : SyntaxError},
    (∀ l ∈ ls, l.Spelled) → readLevels last.ending n least ls = .error e →
      Fault last (n + 1) least.strength ls e := by
  intro n
  induction n with
  | zero =>
    intro least ls e hls h
    exact readLevel_fault covers_none (explains_none last) hls h
  | succ n ih =>
    intro least ls e hls h
    refine readLevel_fault (covers_readLevels n) ?_ hls h
    intro read hread c ls e hls h
    cases hread
    exact ih hls h

/-! ## Whole texts -/

variable {text : List Char} {offset : Nat}

theorem readLevel_eq_ok_none {ending : Ending}
    (h : readLevel ending deeper least ls = .ok (none, rest)) : ls = [] ∧ ending = .finished := by
  have hoperand : readOperand ending deeper least ls = .ok (none, rest) := by
    rw [readLevel] at h
    split at h
    · cases h
    · rename_i hoperand
      cases h
      exact hoperand
    · split at h <;> cases h
  obtain _ | ⟨⟨start, token⟩, tail⟩ := ls
  · cases ending with
    | finished => exact ⟨rfl, rfl⟩
    | failed start e => cases hoperand
  cases token with
  | name s => cases hoperand
  | quoted s => cases hoperand
  | operator op =>
    cases op with
    | connective c =>
      simp only [readOperand] at hoperand
      split at hoperand <;> cases hoperand
    | rightParen => cases hoperand
    | leftParen =>
      obtain _ | read := deeper
      · cases hoperand
      simp only [readOperand] at hoperand
      split at hoperand <;> cases hoperand

theorem readLevels_eq_ok_none {ending : Ending}
    (h : readLevels ending n least ls = .ok (none, rest)) : ls = [] ∧ ending = .finished := by
  cases n with
  | zero => exact readLevel_eq_ok_none h
  | succ n => exact readLevel_eq_ok_none h

theorem readLevels_nil (n : Nat) (least : Connective) :
    readLevels .finished n least [] = .ok (none, []) := by
  cases n <;> rfl

/-- A text is refused because there is nothing in it, or for a fault. -/
theorem fault_of_read_eq_error (hscan : (Cursor.start text offset).lexemes = (ls, last))
    (h : read text offset = .error e) :
    (ls = [] ∧ last.ending = .finished ∧ e = .expressionExpected offset) ∨
      Fault last (maxLevels + 1) 0 ls e := by
  have hls : ∀ l ∈ ls, l.Spelled := Cursor.spelled_of_lexemes hscan
  rw [read, hscan] at h
  simp only at h
  split at h
  · rename_i hr
    cases h
    exact .inr (readLevels_fault hls hr)
  · rename_i hr
    cases h
    obtain ⟨hnil, hend⟩ := readLevels_eq_ok_none hr
    exact .inl ⟨hnil, hend, rfl⟩
  · rename_i t l rest hr
    cases h
    obtain ⟨⟨⟨taken, rfl, htaken⟩, hcan, hb, -⟩, hn⟩ := readLevels_eq_ok_some_iff.mp hr
    have hl : l.Spelled := hls l (List.mem_append_right _ List.mem_cons_self)
    refine .inr (.blamed taken (l :: rest) rfl hl.blames_here ?_)
    rw [htaken]
    exact begins_tokens hcan hb (Nat.lt_succ_of_le hn)
  · rename_i t hr
    split at h
    · cases h
    · rename_i start e' hend
      cases h
      obtain ⟨⟨hconsumes, hcan, hb, -⟩, hn⟩ := readLevels_eq_ok_some_iff.mp hr
      obtain ⟨rfl, d, hnext⟩ := Cursor.ending_eq_failed_iff.mp hend
      have hrest : last.skipBlanks.rest ≠ [] := by
        intro hnil
        rw [Cursor.next_of_rest_eq_nil hnil] at hnext
        cases hnext
      refine .inr (.blamed ls [] (List.append_nil ls).symm
        (Cursor.blames_unexpectedHere hrest) ?_)
      rw [consumes_nil_iff.mp hconsumes]
      exact begins_tokens hcan hb (Nat.lt_succ_of_le hn)

end Tree

end Interpolation
