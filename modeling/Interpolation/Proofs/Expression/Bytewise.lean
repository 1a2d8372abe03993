import Mathlib
import Interpolation.Proofs.Expression.Pairs
import Interpolation.Proofs.Text.Utf8

/-!
# Scanning byte by byte

Here a cursor is a number of bytes and nothing else, and a scanning step moves it on byte by byte.
Texts are taken out of the source between two positions, and there is none to take out if one of
them lies inside a character, behind the end of the source, or behind the other one. Each such part
is asked for with `slice?`, so that a step has no answer at all if any of them does not exist.

From a cursor at the beginning of a character every step has an answer, which is that of the scan by
characters, and the cursor that it leaves is the same, also if it fails.
-/

namespace Interpolation

open Text

/-! ## The loops -/

def isQuote (c : Char) : Bool := c = '\''

def isHyphen (c : Char) : Bool := c = '-'

/-- The first byte from `i` on that is not of a name. The loop fails at a hyphen, if there is no
byte of a name behind it. -/
def nameEnd : List UInt8 → Nat → Except Nat Nat
  | [], i => .ok i
  | b :: bs, i =>
    if ¬ onByte isNameChar b then .ok i
    else if onByte isHyphen b ∧ ¬ bs.head?.any (onByte isNameChar) then .error i
    else nameEnd bs (i + 1)

/-- The byte behind the closing quote, in the inside of a quoted text from `i` on. Without such a
quote the loop fails where the text ends. -/
def quoteEnd : List UInt8 → Nat → Except Nat Nat
  | [], i => .error i
  | b :: bs, i =>
    if ¬ onByte isQuote b then quoteEnd bs (i + 1)
    else match bs with
      | [] => .ok (i + 1)
      | b' :: bs' => if onByte isQuote b' then quoteEnd bs' (i + 2) else .ok (i + 1)

theorem ascii_isBlank : Ascii isBlank := by
  intro c h
  simp only [isBlank, Bool.or_eq_true, decide_eq_true_eq] at h
  rcases h with ((rfl | rfl) | rfl) | rfl <;> decide

theorem ascii_isQuote : Ascii isQuote := by
  intro c h
  rw [of_decide_eq_true h]
  decide

theorem ascii_isNameChar : Ascii isNameChar := by
  intro c h
  simp only [isNameChar, Char.isAlphanum, Char.isAlpha, Char.isUpper, Char.isLower, Char.isDigit,
    Bool.or_eq_true, Bool.and_eq_true, decide_eq_true_eq] at h
  rcases h with ((((⟨-, h⟩ | ⟨-, h⟩) | ⟨-, h⟩) | rfl) | rfl)
  · exact Nat.lt_of_le_of_lt (UInt32.le_iff_toNat_le.mp h) (by decide)
  · exact Nat.lt_of_le_of_lt (UInt32.le_iff_toNat_le.mp h) (by decide)
  · exact Nat.lt_of_le_of_lt (UInt32.le_iff_toNat_le.mp h) (by decide)
  · decide
  · decide

section Loops

variable {cs run inside after : List Char} {c : Char} {i : Nat}

theorem nameEnd_of_neg (h : ∀ x ∈ cs.head?, ¬ isNameChar x) : nameEnd (utf8 cs) i = .ok i := by
  cases cs with
  | nil => rfl
  | cons c cs =>
    obtain ⟨b, bs, hbs, hb⟩ := exists_utf8_cons_of_neg ascii_isNameChar (h c rfl) cs
    rw [hbs, nameEnd, if_pos hb]

/-- The loop over a name looks at its first character and at what follows. -/
theorem nameEnd_cons (hc : isNameChar c) : nameEnd (utf8 (c :: cs)) i =
    if c = '-' ∧ ¬ cs.head?.any isNameChar then .error i else nameEnd (utf8 cs) (i + 1) := by
  have hlow := ascii_isNameChar c hc
  rw [utf8_cons_of_pos ascii_isNameChar hc, nameEnd, onByte_toUInt8 hlow, onByte_toUInt8 hlow,
    head?_utf8_any ascii_isNameChar, if_neg (fun h ↦ h hc)]
  simp only [isHyphen, decide_eq_true_eq]

/-- The loop passes a run of characters of names that it does not fail in. -/
theorem nameEnd_append (hrun : ∀ x ∈ run, isNameChar x)
    (hgo : run.getLast? = some '-' → after.head?.any isNameChar) :
    nameEnd (utf8 (run ++ after)) i = nameEnd (utf8 after) (i + byteLength run) := by
  induction run generalizing i with
  | nil => rfl
  | cons c run ih =>
    have hc : isNameChar c := hrun c List.mem_cons_self
    have htail : ∀ x ∈ run, isNameChar x := fun x hx ↦ hrun x (List.mem_cons_of_mem _ hx)
    have hsize : c.utf8Size = 1 := utf8Size_of_lt (ascii_isNameChar c hc)
    -- Behind a hyphen, another character of the name follows.
    have hnext : ¬ (c = '-' ∧ ¬ (run ++ after).head?.any isNameChar) := by
      rintro ⟨rfl, hnone⟩
      cases run with
      | nil => exact hnone (hgo rfl)
      | cons d run => exact hnone (htail d List.mem_cons_self)
    have hgo' : run.getLast? = some '-' → after.head?.any isNameChar := by
      cases run with
      | nil => simp
      | cons d run => rwa [List.getLast?_cons_cons] at hgo
    rw [List.cons_append, nameEnd_cons hc, if_neg hnext, ih htail hgo', byteLength_cons, hsize,
      Nat.add_assoc]

theorem nameEnd_of_run (hrun : ∀ x ∈ run, isNameChar x) (hlast : run.getLast? ≠ some '-')
    (hafter : ∀ x ∈ after.head?, ¬ isNameChar x) :
    nameEnd (utf8 (run ++ after)) i = .ok (i + byteLength run) := by
  rw [nameEnd_append hrun fun h ↦ absurd h hlast, nameEnd_of_neg hafter]

theorem nameEnd_of_hyphen (hrun : ∀ x ∈ run, isNameChar x)
    (hafter : ∀ x ∈ after.head?, ¬ isNameChar x) :
    nameEnd (utf8 (run ++ '-' :: after)) i = .error (i + byteLength run) := by
  have hhyphen : isNameChar '-' := by decide
  have hnone : ¬ after.head?.any isNameChar := by
    intro hany
    obtain ⟨x, hx, hname⟩ := Option.any_eq_true _ _ |>.mp hany
    exact hafter x hx hname
  have hgo : run.getLast? = some '-' → ('-' :: after).head?.any isNameChar := fun _ ↦ hhyphen
  rw [nameEnd_append hrun hgo, nameEnd_cons hhyphen, if_pos ⟨rfl, hnone⟩]

theorem quoteEnd_append {xs : List UInt8} (h : ∀ b ∈ xs, ¬ onByte isQuote b) (bs : List UInt8) :
    quoteEnd (xs ++ bs) i = quoteEnd bs (i + xs.length) := by
  induction xs generalizing i with
  | nil => rfl
  | cons b xs ih =>
    have hb : ¬ onByte isQuote b := h b List.mem_cons_self
    rw [List.cons_append, quoteEnd.eq_def]
    simp only [if_pos hb]
    rw [ih fun b' hb' ↦ h b' (List.mem_cons_of_mem _ hb'), List.length_cons, Nat.add_assoc,
      Nat.add_comm 1]

theorem quoteEnd_of_ne (hc : c ≠ '\'') :
    quoteEnd (utf8 (c :: cs)) i = quoteEnd (utf8 cs) (i + c.utf8Size) := by
  have hquote : ¬ isQuote c := by simpa [isQuote] using hc
  rw [utf8_cons, quoteEnd_append fun b ↦ not_of_mem_utf8EncodeChar ascii_isQuote hquote,
    String.length_utf8EncodeChar]

theorem quoteEnd_pair : quoteEnd (utf8 ('\'' :: '\'' :: cs)) i = quoteEnd (utf8 cs) (i + 2) := rfl

theorem quoteEnd_single (h : ∀ x ∈ cs.head?, x ≠ '\'') :
    quoteEnd (utf8 ('\'' :: cs)) i = .ok (i + 1) := by
  cases cs with
  | nil => rfl
  | cons c cs =>
    have hc : ¬ isQuote c := by simpa [isQuote] using h c rfl
    obtain ⟨b, bs, hbs, hb⟩ := exists_utf8_cons_of_neg ascii_isQuote hc cs
    rw [utf8_cons_of_pos ascii_isQuote (by decide), hbs, quoteEnd.eq_def]
    simp only [if_neg hb]
    rfl

theorem quoteEnd_of_closes (h : Closes cs inside after) :
    quoteEnd (utf8 cs) i = .ok (i + byteLength inside + 1) := by
  obtain ⟨rfl, hpaired, hsingle⟩ := h
  induction hpaired generalizing i with
  | nil => exact quoteEnd_single hsingle
  | @other c cs hc _ ih =>
    rw [List.cons_append, quoteEnd_of_ne hc, ih, byteLength_cons]
    simp only [Nat.add_assoc]
  | @pair cs _ ih =>
    have hsize : Char.utf8Size '\'' = 1 := rfl
    rw [List.cons_append, List.cons_append, quoteEnd_pair, ih, byteLength_cons, byteLength_cons,
      hsize]
    simp only [← Nat.add_assoc]

theorem quoteEnd_of_unclosed (h : closeQuote? cs = none) :
    quoteEnd (utf8 cs) i = .error (i + byteLength cs) := by
  fun_induction closeQuote? cs generalizing i with
  | case1 => rfl
  | case2 rest ih =>
    have hsize : Char.utf8Size '\'' = 1 := rfl
    rw [quoteEnd_pair, ih (Option.map_eq_none_iff.mp h), byteLength_cons, byteLength_cons, hsize]
    simp only [← Nat.add_assoc]
  | case3 => cases h
  | case4 c rest _ hc ih =>
    rw [quoteEnd_of_ne hc, ih (Option.map_eq_none_iff.mp h), byteLength_cons, Nat.add_assoc]

end Loops

/-! ## Cursors that count bytes -/

/-- A place in a text as a number of bytes. -/
structure ByteCursor where
  text : List Char
  /-- The byte of the surrounding text at which the text begins. -/
  offset : Nat
  position : Nat

namespace ByteCursor

/-- The answer of a scanning step, with the position of the token. -/
abbrev Scanned := Except SyntaxError (Option (Token × Nat)) × ByteCursor

/-- The bytes from the cursor on. -/
def bytes (b : ByteCursor) : List UInt8 := (utf8 b.text).drop b.position

def atEnd (b : ByteCursor) : Bool := byteLength b.text ≤ b.position

def moveTo (b : ByteCursor) (position : Nat) : ByteCursor := { b with position := position }

/-- The text from a byte on. -/
def rest? (b : ByteCursor) (place : Nat) : Option (List Char) :=
  slice? place (byteLength b.text) b.text

/-- The error that blames `token` at a byte. -/
def unexpected (b : ByteCursor) (token : List Char) (place : Nat) : SyntaxError :=
  .unexpectedToken (String.ofList token) (b.offset + place)

/-- The error that blames the character under the cursor. -/
def unexpectedHere? (b : ByteCursor) : Option SyntaxError :=
  (b.rest? b.position).map fun rest ↦ b.unexpected (rest.take 1) b.position

/-- The operator at the cursor, if there is one. -/
def operator? (b : ByteCursor) : Option (Option Operator) :=
  (b.rest? b.position).map fun rest ↦ (Operator.ofText? rest).map Prod.fst

def skipBlanks (b : ByteCursor) : ByteCursor :=
  b.moveTo (b.position + (b.bytes.takeWhile (onByte isBlank)).length)

/-- Moves on by the length of an operator, whatever is there. -/
def advance (b : ByteCursor) (op : Operator) : ByteCursor :=
  b.moveTo (b.position + byteLength op.symbol.toList)

/-- The name at the cursor. -/
def name (b : ByteCursor) : Option Scanned :=
  match nameEnd b.bytes b.position with
  | .error stop => some (.error (b.unexpected ['-'] stop), b.moveTo stop)
  | .ok stop =>
    if stop = b.position then some (.ok none, b)
    else (slice? b.position stop b.text).map fun run ↦
      (.ok (some (.name (String.ofList run), b.offset + b.position)), b.moveTo stop)

/-- The quoted text at the cursor: what stands between the quotes, with one for each pair. -/
def quoted (b : ByteCursor) : Option Scanned :=
  if ¬ b.bytes.head?.any (onByte isQuote) then some (.ok none, b)
  else match quoteEnd b.bytes.tail (b.position + 1) with
    | .error stop => (b.rest? b.position).map fun rest ↦
      (.error (b.unexpected rest b.position), b.moveTo stop)
    | .ok stop => (slice? (b.position + 1) (stop - 1) b.text).map fun inside ↦
      (.ok (some (.quoted (String.ofList (replacePair '\'' '\'' '\'' inside)),
        b.offset + b.position)), b.moveTo stop)

/-- The next token, or none when only blanks are left. -/
def next (b : ByteCursor) : Option Scanned :=
  let b := b.skipBlanks
  if b.atEnd then some (.ok none, b) else do
    match ← b.quoted with
    | (.ok none, b) =>
      match ← b.name with
      | (.ok none, b) =>
        match ← b.operator? with
        | some op => some (.ok (some (.operator op, b.offset + b.position)), b.advance op)
        | none => b.unexpectedHere?.map fun e ↦ (.error e, b)
      | answer => some answer
    | answer => some answer

end ByteCursor

/-! ## Both scans -/

namespace Cursor

variable {text before taken rest : List Char} {c d : Cursor} {offset : Nat}

/-- The cursor stands in the text, where a character begins or the text ends. -/
def StandsIn (text : List Char) (c : Cursor) : Prop := (start text c.offset).Precedes c

/-- The cursor as a number of bytes. -/
def inBytes (text : List Char) (c : Cursor) : ByteCursor := ⟨text, c.offset, c.position⟩

@[simp] theorem position_inBytes (text : List Char) (c : Cursor) :
    (c.inBytes text).position = c.position := rfl

@[simp] theorem text_inBytes (text : List Char) (c : Cursor) : (c.inBytes text).text = text := rfl

/-- The token that was found, and where it begins in the surrounding text. -/
def found (answer : Except SyntaxError (Option Lexeme)) :
    Except SyntaxError (Option (Token × Nat)) :=
  answer.map (Option.map fun l ↦ (l.token, l.position))

/-- An answer of the scan by characters as one of the scan by bytes. -/
def answerInBytes (text : List Char) (answer : Scanned) : ByteCursor.Scanned :=
  (found answer.1, answer.2.inBytes text)

theorem Precedes.refl (c : Cursor) : c.Precedes c := ⟨[], rfl, rfl⟩

theorem Precedes.past (h : c.rest = taken ++ rest) : c.Precedes (c.past taken rest) :=
  ⟨taken, h, rfl⟩

theorem Precedes.position_le (h : c.Precedes d) : c.position ≤ d.position := by
  obtain ⟨passed, -, hd⟩ := h
  rw [← hd]
  exact Nat.le_add_right _ _

theorem Precedes.offset_eq (h : c.Precedes d) : d.offset = c.offset := by
  obtain ⟨passed, -, hd⟩ := h
  rw [← hd]
  rfl

/-! Every step leaves its cursor further on in the text, also if it fails. -/

theorem precedes_name (c : Cursor) : c.Precedes c.name.2 := by
  rcases hname : c.name with ⟨e | _ | l, d⟩
  · obtain ⟨run, after, hrest, -, -, rfl, -⟩ := name_eq_error_iff.mp hname
    exact .past hrest
  · exact (name_eq_none_iff.mp hname).2 ▸ .refl c
  · obtain ⟨s, -, htakes⟩ := name_eq_some_iff.mp hname
    exact htakes.precedes

theorem precedes_quoted (c : Cursor) : c.Precedes c.quoted.2 := by
  rcases hquoted : c.quoted with ⟨e | _ | l, d⟩
  · obtain ⟨-, -, -, -, rfl⟩ := quoted_eq_error_iff.mp hquoted
    exact .past (List.append_nil _).symm
  · exact (quoted_eq_none_iff.mp hquoted).2 ▸ .refl c
  · obtain ⟨s, -, htakes⟩ := quoted_eq_some_iff.mp hquoted
    exact htakes.precedes

theorem precedes_operator (c : Cursor) : c.Precedes c.operator.2 := by
  rcases hop : c.operator with ⟨e | _ | l, d⟩
  · exact (operator_eq_error_iff.mp hop).2.2 ▸ .refl c
  · rw [operator] at hop
    split at hop <;> cases hop
  · obtain ⟨op, -, htakes⟩ := operator_eq_some_iff.mp hop
    exact htakes.precedes

theorem precedes_next (c : Cursor) : c.Precedes c.next.2 := by
  refine (precedes_skipBlanks c).trans ?_
  by_cases hrest : c.skipBlanks.rest = []
  · rw [next_of_rest_eq_nil hrest]
    exact .refl _
  rw [next_of_rest_ne_nil hrest]
  split
  · split
    · exact precedes_operator _
    · exact precedes_name _
  · exact precedes_quoted _

theorem precedes_of_next {answer : Except SyntaxError (Option Lexeme)}
    (h : c.next = (answer, d)) : c.Precedes d := by
  have hprecedes := precedes_next c
  rwa [h] at hprecedes

theorem standsIn_start (text : List Char) (offset : Nat) : (start text offset).StandsIn text :=
  .refl _

namespace StandsIn

variable {op : Operator}

theorem precedes (h : c.StandsIn text) (hcd : c.Precedes d) : d.StandsIn text := by
  rw [StandsIn, hcd.offset_eq]
  exact Precedes.trans h hcd

theorem past (h : c.StandsIn text) (hrest : c.rest = taken ++ rest) :
    (c.past taken rest).StandsIn text :=
  h.precedes (.past hrest)

/-- What lies before the cursor. -/
theorem exists_before (h : c.StandsIn text) :
    ∃ before, text = before ++ c.rest ∧ c.position = byteLength before := by
  obtain ⟨before, htext, hc⟩ := h
  refine ⟨before, htext, ?_⟩
  rw [← hc]
  exact Nat.zero_add _

theorem position_le (h : c.StandsIn text) : c.position ≤ byteLength text := by
  obtain ⟨before, htext, hposition⟩ := h.exists_before
  rw [htext, hposition, byteLength_append]
  exact Nat.le_add_right _ _

theorem dropBytes?_position (h : c.StandsIn text) : dropBytes? c.position text = some c.rest := by
  obtain ⟨before, htext, hposition⟩ := h.exists_before
  exact dropBytes?_eq_some_iff.mpr ⟨before, htext, hposition.symm⟩

theorem passed_eq (h : c.StandsIn text) : c.passed = 0 := by
  obtain ⟨before, -, hc⟩ := h
  rw [← hc]
  rfl

theorem bytes_inBytes (h : c.StandsIn text) : (c.inBytes text).bytes = utf8 c.rest := by
  obtain ⟨before, htext, hposition⟩ := h.exists_before
  rw [ByteCursor.bytes, inBytes, hposition, htext, drop_utf8_append]

theorem atEnd_inBytes (h : c.StandsIn text) : (c.inBytes text).atEnd = c.atEnd := by
  obtain ⟨before, htext, hposition⟩ := h.exists_before
  rw [ByteCursor.atEnd, inBytes, hposition, htext, byteLength_append, atEnd]
  by_cases hnil : c.rest = []
  · simp [hnil]
  · have hpos := byteLength_pos hnil
    have hlt : ¬ byteLength before + byteLength c.rest ≤ byteLength before := by omega
    simp [hnil, hlt]

/-- **What stands at the cursor is a part of the text.** -/
theorem slice?_eq (h : c.StandsIn text) (hrest : c.rest = taken ++ rest) :
    slice? c.position (c.position + byteLength taken) text = some taken := by
  obtain ⟨before, htext, hposition⟩ := h.exists_before
  rw [htext, hposition, hrest, slice?_append]

/-- The rest of the text can be asked for from anywhere. -/
theorem rest?_inBytes (h : c.StandsIn text) (d : Cursor) :
    (d.inBytes text).rest? c.position = some c.rest := by
  obtain ⟨before, htext, hposition⟩ := h.exists_before
  have hslice := h.slice?_eq (List.append_nil c.rest).symm
  rwa [ByteCursor.rest?, text_inBytes, htext, byteLength_append, ← hposition, ← htext]

theorem unexpectedHere?_inBytes (h : c.StandsIn text) :
    (c.inBytes text).unexpectedHere? = some c.unexpectedHere := by
  rw [ByteCursor.unexpectedHere?, position_inBytes, h.rest?_inBytes c]
  rfl

theorem operator?_inBytes (h : c.StandsIn text) :
    (c.inBytes text).operator? = some c.operator? := by
  rw [ByteCursor.operator?, position_inBytes, h.rest?_inBytes c]
  rfl

theorem skipBlanks_inBytes (h : c.StandsIn text) :
    (c.inBytes text).skipBlanks = c.skipBlanks.inBytes text := by
  rw [ByteCursor.skipBlanks, h.bytes_inBytes, takeWhile_utf8 ascii_isBlank, length_utf8]
  rfl

/-- **An operator that stands at the cursor** is passed as a whole. -/
theorem takes_advance (h : c.StandsIn text) (hop : c.operator? = some op) :
    c.Takes (.operator op) (c.advance op) := by
  obtain ⟨⟨op', after⟩, hafter, heq⟩ := Option.map_eq_some_iff.mp hop
  obtain rfl : op' = op := heq
  have hrest : c.rest = op'.symbol.toList ++ after := Operator.ofText?_eq_some_iff.mp hafter
  have hadvance : c.advance op' = c.past op'.symbol.toList after := by
    rw [advance, h.passed_eq, Nat.zero_add, hrest, passBytes_byteLength]
    rw [Cursor.past, h.passed_eq]
  rw [hadvance]
  exact ⟨trivial, hrest, trivial, rfl⟩

theorem name_inBytes (h : c.StandsIn text) :
    (c.inBytes text).name = some (answerInBytes text c.name) := by
  rw [ByteCursor.name, h.bytes_inBytes]
  rcases hname : c.name with ⟨e | _ | l, d⟩
  · obtain ⟨run, after, hrest, hrun, hafter, rfl, rfl⟩ := name_eq_error_iff.mp hname
    rw [hrest, nameEnd_of_hyphen hrun hafter]
    rfl
  · obtain ⟨hhead, rfl⟩ := name_eq_none_iff.mp hname
    rw [nameEnd_of_neg hhead]
    exact if_pos rfl
  · obtain ⟨s, rfl, ⟨hne, hall, hlast⟩, hrest, hends, hpast⟩ := name_eq_some_iff.mp hname
    rw [Token.text] at hrest hpast
    have hmoves : ¬ c.position + byteLength s.toList = c.position := by
      have hpos := byteLength_pos hne
      omega
    have hslice := h.slice?_eq hrest
    rw [hrest, nameEnd_of_run hall hlast hends, ← hpast]
    simp only [position_inBytes, text_inBytes, if_neg hmoves, hslice, Option.map_some,
      String.ofList_toList]
    rfl

theorem quoted_inBytes (h : c.StandsIn text) :
    (c.inBytes text).quoted = some (answerInBytes text c.quoted) := by
  rw [ByteCursor.quoted, h.bytes_inBytes]
  rcases hquoted : c.quoted with ⟨e | _ | l, d⟩
  · obtain ⟨inside, hrest, hnone, rfl, rfl⟩ := quoted_eq_error_iff.mp hquoted
    have hhead : (utf8 c.rest).head?.any (onByte isQuote) := by rw [hrest]; rfl
    have htail : (utf8 c.rest).tail = utf8 inside := by rw [hrest]; rfl
    have hlength : c.position + 1 + byteLength inside = c.position + byteLength c.rest := by
      rw [hrest, Nat.add_assoc]
      rfl
    rw [if_neg (not_not_intro hhead), htail]
    simp only [position_inBytes, quoteEnd_of_unclosed hnone, h.rest?_inBytes c, hlength]
    rfl
  · obtain ⟨hhead, rfl⟩ := quoted_eq_none_iff.mp hquoted
    have hnone : ¬ (utf8 c.rest).head?.any (onByte isQuote) := by
      rw [head?_utf8_any ascii_isQuote]
      intro hany
      obtain ⟨q, hq, hquote⟩ := Option.any_eq_true _ _ |>.mp hany
      exact hhead q hq (of_decide_eq_true hquote)
    rw [if_pos hnone]
    rfl
  · obtain ⟨cs, inside, hrest, hcloses, rfl, hpast⟩ := quoted_eq_some_iff_closes.mp hquoted
    have hhead : (utf8 c.rest).head?.any (onByte isQuote) := by rw [hrest]; rfl
    have htail : (utf8 c.rest).tail = utf8 cs := by rw [hrest]; rfl
    have hinside : slice? (c.position + 1) (c.position + 1 + byteLength inside) text =
        some inside := by
      have hbehind : (c.past ['\''] cs).StandsIn text := h.past hrest
      exact hbehind.slice?_eq hcloses.eq
    have hlength : c.position + 1 + byteLength inside + 1 =
        c.position + byteLength ('\'' :: (inside ++ ['\''])) := by
      rw [byteLength_cons, byteLength_append, Nat.add_assoc, Nat.add_assoc]
      rfl
    rw [if_neg (not_not_intro hhead), htail, ← hpast]
    simp only [position_inBytes, text_inBytes, quoteEnd_of_closes hcloses, Nat.add_sub_cancel,
      hinside, Option.map_some]
    rw [hlength]
    rfl

theorem next_inBytes (h : c.StandsIn text) :
    (c.inBytes text).next = some (answerInBytes text c.next) := by
  have hskip : c.skipBlanks.StandsIn text := h.precedes (precedes_skipBlanks c)
  rw [ByteCursor.next, next, h.skipBlanks_inBytes]
  simp only [hskip.atEnd_inBytes]
  by_cases hend : c.skipBlanks.atEnd = true
  · rw [if_pos hend, if_pos hend]
    rfl
  rw [if_neg hend, if_neg hend, hskip.quoted_inBytes]
  rcases hquoted : c.skipBlanks.quoted with ⟨e | _ | l, d⟩
  · rfl
  · obtain rfl := (quoted_eq_none_iff.mp hquoted).2
    simp only [answerInBytes, found, Except.map, Option.map_none, Option.bind_eq_bind,
      Option.bind_some, hskip.name_inBytes]
    rcases hname : c.skipBlanks.name with ⟨e | _ | l, d⟩
    · rfl
    · obtain rfl := (name_eq_none_iff.mp hname).2
      simp only [Option.map_none, hskip.operator?_inBytes, Option.bind_some]
      rcases hop : c.skipBlanks.operator? with _ | op
      · have hnone : c.skipBlanks.operator = (.error c.skipBlanks.unexpectedHere, c.skipBlanks) :=
          operator_eq_error_iff.mpr ⟨Option.map_eq_none_iff.mp hop, rfl, rfl⟩
        simp only [hskip.unexpectedHere?_inBytes, hnone]
        rfl
      · have hsome := operator_eq_some_iff.mpr ⟨op, rfl, hskip.takes_advance hop⟩
        simp only [hsome]
        rfl
    · rfl
  · rfl

end StandsIn

end Cursor

end Interpolation
