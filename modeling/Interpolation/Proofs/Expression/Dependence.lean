import Interpolation.Expression.Basic
import Interpolation.Proofs.Document.Unsigned

/-!
# What an expression depends on

Only the root names of an expression are read from the context. The right side of a dot reads too,
but from the value of the left side, which depends on the root names already; and of the operands of
`||` and `&&` it makes no difference which are skipped, since all their names are root names.

Contexts need to agree as data only. That the signs of zeros do not matter is shown for one context
first: an evaluation commutes with dropping them, so that two contexts can be compared by their
unsigned forms.
-/

namespace Interpolation

open Document

/-! ## Listed names -/

theorem mem_distinct {n : String} {names : List String} : n ∈ distinct names ↔ n ∈ names := by
  have hfold : ∀ seen : List String,
      n ∈ names.foldl (fun seen name ↦ if name ∈ seen then seen else name :: seen) seen ↔
        n ∈ seen ∨ n ∈ names := by
    induction names with
    | nil => simp
    | cons m names ih =>
      intro seen
      rw [List.foldl_cons, ih]
      by_cases hm : m ∈ seen
      · rw [if_pos hm, List.mem_cons]
        constructor
        · rintro (h | h)
          · exact .inl h
          · exact .inr (.inr h)
        · rintro (h | rfl | h)
          · exact .inl h
          · exact .inl hm
          · exact .inr h
      · rw [if_neg hm, List.mem_cons, List.mem_cons, or_left_comm, or_assoc]
  rw [distinct, List.mem_reverse, hfold]
  simp

/-! ## Equations of evaluation -/

section

variable {α β ε : Type} {x : Except ε α} {f : α → Except ε β}

theorem bind_eq_ok_iff {b : β} : x.bind f = .ok b ↔ ∃ a, x = .ok a ∧ f a = .ok b := by
  cases x with
  | error e => simp [Except.bind]
  | ok a => simp [Except.bind]

theorem bind_eq_error_iff {e : ε} :
    x.bind f = .error e ↔ x = .error e ∨ ∃ a, x = .ok a ∧ f a = .error e := by
  cases x with
  | error e' => simp [Except.bind]
  | ok a => simp [Except.bind]

end

namespace Tree

/-- What can come of reading a name. -/
inductive Reads (n : String) (context : Value) (path : List String) :
    Except EvaluationError Resolved → Prop where
  | nullish (h : context.isNullish = true) :
      Reads n context path (.error (.undefinedVariable path (some n)))
  | found {d : Document} (h : context.property? n = some d) :
      Reads n context path (.ok ⟨.document d, path ++ [n]⟩)
  | missing (hn : context.isNullish = false) (h : context.property? n = none) (hp : path = []) :
      Reads n context path (.error (.undefinedVariable [n] none))
  | absent (hn : context.isNullish = false) (h : context.property? n = none) (hp : path ≠ []) :
      Reads n context path (.ok ⟨.undefined, path ++ [n]⟩)

theorem reads_evaluateName (n : String) (context : Value) (path : List String) :
    Reads n context path (evaluateName n context path) := by
  rw [evaluateName]
  split
  · rename_i hnullish
    exact .nullish hnullish
  · rename_i hnullish
    have hn : context.isNullish = false := by simpa using hnullish
    cases h : context.property? n with
    | some d => exact .found h
    | none =>
      simp only
      split
      · rename_i hp
        exact .missing hn h (List.isEmpty_iff.mp hp)
      · rename_i hp
        exact .absent hn h (by simpa using hp)

theorem evaluate_name_of_lookup {n : String} {d : Document} {fs : List (String × Document)}
    (h : fs.lookup n = some d) (path : List String) :
    (name n).evaluate (.document (.object fs)) path = .ok ⟨.document d, path ++ [n]⟩ := by
  simp [evaluate, evaluateName, Value.isNullish, Value.property?, h]

theorem evaluate_dot (l r : Tree) (context : Value) (path : List String) :
    (join .dot l r).evaluate context path =
      (l.evaluate context path).bind fun base ↦ r.evaluate base.value base.path := by
  rw [evaluate]
  cases l.evaluate context path <;> rfl

theorem evaluate_or (l r : Tree) (context : Value) (path : List String) :
    (join .or l r).evaluate context path = (l.evaluate context path).bind fun left ↦
      if left.value.isTruthy then .ok left else r.evaluate context path := by
  rw [evaluate]
  cases l.evaluate context path <;> rfl

theorem evaluate_and (l r : Tree) (context : Value) (path : List String) :
    (join .and l r).evaluate context path = (l.evaluate context path).bind fun left ↦
      if left.value.isTruthy then r.evaluate context path else .ok left := by
  rw [evaluate]
  cases l.evaluate context path <;> rfl

/-- `||` and `&&` give the answer of one of their sides. -/
theorem evaluate_choice {con : Connective} {l r : Tree} {context : Value} {path : List String}
    {answer : Except EvaluationError Resolved}
    (h : (join con l r).evaluate context path = answer) (hcon : con ≠ .dot) :
    l.evaluate context path = answer ∨ r.evaluate context path = answer := by
  cases con with
  | dot => exact absurd rfl hcon
  | or =>
    rw [evaluate_or] at h
    rcases hl : l.evaluate context path with e | left
    · exact .inl (by rwa [hl] at h)
    · rw [hl, Except.bind] at h
      split at h
      · exact .inl h
      · exact .inr h
  | and =>
    rw [evaluate_and] at h
    rcases hl : l.evaluate context path with e | left
    · exact .inl (by rwa [hl] at h)
    · rw [hl, Except.bind] at h
      split at h
      · exact .inr h
      · exact .inl h

end Tree

/-! ## Signs of zeros -/

@[simp] theorem Number.text_unsigned (n : Number) : n.unsigned.text = n.text := by
  cases n with
  | integer i => rfl
  | float b =>
    rw [unsigned]
    split
    · rename_i h
      simp only [text, Layout.text, layout, h]
      simp [Binary64.isZero]
    · rfl

namespace Value

/-- The value, with the signs of zeros dropped. -/
def unsigned : Value → Value
  | document d => document d.unsigned
  | v => v

@[simp] theorem isNullish_unsigned (v : Value) : v.unsigned.isNullish = v.isNullish := by
  cases v with
  | document d => cases d <;> rfl
  | _ => rfl

@[simp] theorem isTruthy_unsigned (v : Value) : v.unsigned.isTruthy = v.isTruthy := by
  cases v with
  | document d =>
    cases d with
    | number n => simp [unsigned, Document.unsigned, isTruthy]
    | _ => rfl
  | _ => rfl

@[simp] theorem text?_unsigned (v : Value) : v.unsigned.text? = v.text? := by
  cases v with
  | document d =>
    cases d with
    | number n => simp [unsigned, Document.unsigned, text?]
    | _ => rfl
  | _ => rfl

@[simp] theorem property?_unsigned (v : Value) (name : String) :
    v.unsigned.property? name = (v.property? name).map Document.unsigned := by
  cases v with
  | document d => exact field?_unsigned d name
  | _ => rfl

end Value

/-- The result, with the signs of zeros dropped. -/
def Resolved.unsigned (r : Resolved) : Resolved := ⟨r.value.unsigned, r.path⟩

namespace Tree

variable {t : Tree} {path : List String}

theorem evaluateName_unsigned (name : String) (v : Value) (path : List String) :
    evaluateName name v.unsigned path = (evaluateName name v path).map Resolved.unsigned := by
  rw [evaluateName, evaluateName, Value.isNullish_unsigned, Value.property?_unsigned]
  split
  · rfl
  · cases v.property? name with
    | some d => rfl
    | none =>
      simp only [Option.map_none]
      split <;> rfl

/-- **Evaluation commutes with dropping signs of zeros.** -/
theorem evaluate_unsigned (t : Tree) (v : Value) (path : List String) :
    t.evaluate v.unsigned path = (t.evaluate v path).map Resolved.unsigned := by
  induction t generalizing v path with
  | name s => exact evaluateName_unsigned s v path
  | quoted s => rfl
  | group t ih => exact ih v path
  | join c l r ihl ihr =>
    have htruthy (r : Resolved) : r.unsigned.value.isTruthy = r.value.isTruthy :=
      Value.isTruthy_unsigned r.value
    cases c with
    | dot =>
      rw [evaluate_dot, evaluate_dot, ihl]
      rcases l.evaluate v path with e | base
      · rfl
      · exact ihr base.value base.path
    | or =>
      rw [evaluate_or, evaluate_or, ihl]
      rcases l.evaluate v path with e | left
      · rfl
      · simp only [Except.map, Except.bind, htruthy]
        split
        · rfl
        · exact ihr v path
    | and =>
      rw [evaluate_and, evaluate_and, ihl]
      rcases l.evaluate v path with e | left
      · rfl
      · simp only [Except.map, Except.bind, htruthy]
        split
        · exact ihr v path
        · rfl

/-! ## Root names -/

theorem evaluateName_congr {name : String} {v w : Value} (hn : v.isNullish = w.isNullish)
    (hp : v.property? name = w.property? name) :
    evaluateName name v path = evaluateName name w path := by
  rw [evaluateName, evaluateName, hn, hp]

/-- **The root names are all that is read.** Contexts with the same values under the root names
lead to the same result. -/
theorem evaluate_congr {fs gs : List (String × Document)} (path : List String)
    (h : ∀ n ∈ t.rootNames, fs.lookup n = gs.lookup n) :
    t.evaluate (.document (.object fs)) path = t.evaluate (.document (.object gs)) path := by
  induction t generalizing path with
  | name s =>
    have hs : fs.lookup s = gs.lookup s := h s List.mem_cons_self
    exact evaluateName_congr rfl hs
  | quoted s => rfl
  | group t ih => exact ih path h
  | join c l r ihl ihr =>
    cases c with
    | dot =>
      -- The right side starts from one value in both runs, so nothing is asked of its own names.
      rw [evaluate_dot, evaluate_dot, ihl path h]
    | or =>
      have hl := ihl path fun n hn ↦ h n (List.mem_append_left _ hn)
      have hr := ihr path fun n hn ↦ h n (List.mem_append_right _ hn)
      rw [evaluate_or, evaluate_or, hl, hr]
    | and =>
      have hl := ihl path fun n hn ↦ h n (List.mem_append_left _ hn)
      have hr := ihr path fun n hn ↦ h n (List.mem_append_right _ hn)
      rw [evaluate_and, evaluate_and, hl, hr]

end Tree

namespace Expression

theorem render_unsigned (e : Expression) (context : Document) :
    e.render context.unsigned = e.render context := by
  have h : e.resolve context.unsigned = (e.resolve context).map Resolved.unsigned :=
    e.tree.evaluate_unsigned (.document context) []
  rw [render, render, h]
  cases e.resolve context with
  | error err => rfl
  | ok r => simp [Except.map, Resolved.unsigned]

/-- **The text of an expression depends on its root names only.** -/
theorem render_congr {e : Expression} {fs gs : List (String × Document)}
    (h : ∀ n ∈ e.tree.rootNames, AgreeOn n fs gs) :
    e.render (.object fs) = e.render (.object gs) := by
  rw [← render_unsigned, ← e.render_unsigned (.object gs), Document.unsigned, Document.unsigned,
    render, render, resolve, resolve]
  rw [Tree.evaluate_congr [] fun n hn ↦ agreeOn_iff.mp (h n hn)]

end Expression

end Interpolation
