import Interpolation.Proofs.Document.Place
import Interpolation.Proofs.Expression.Dependence

/-!
# Where a value comes from

An evaluation reports its value with a path. The path of a part of the context leads there from the
root of the context, key by key, and is never empty. A value that is absent has the path to the
object that lacks it, and the key. Only a quoted text has the empty path.

The value and its path are handed to the right side of a dot separately, so that they belong
together has to be kept up by every step: `Origin` says how they do. A quoted text is the exception,
as its path is that of the root. To the left of a dot it makes the names on the right look like root
names, and the error then says that the root lacks them. Without such texts, an error of this form
speaks of a root name of the expression that the root does lack.
-/

namespace Interpolation

open Document

variable {c : Document}

/-- The keys `q` lead to a value other than null that has no field `k`. -/
def Document.Lacks (c : Document) (q : List String) (k : String) : Prop :=
  ∃ d, c.get? (q.map .key) = some d ∧ d ≠ .null ∧ d.field? k = none

theorem Document.get?_keys_concat {d : Document} {q : List String}
    (h : c.get? (q.map .key) = some d) (k : String) :
    c.get? ((q ++ [k]).map .key) = d.field? k := by
  rw [List.map_append, get?_append, h, Option.bind_some, List.map_singleton, get?_singleton,
    child?_key]

/-! ## What belongs together -/

/-- How a value belongs to its path: the path leads to the value, or to where the value is absent;
and a quoted text has none. -/
inductive Origin (c : Document) : Value → List String → Prop where
  | found {d : Document} {path : List String} (h : c.get? (path.map .key) = some d) :
      Origin c (.document d) path
  | absent {q : List String} {k : String} (hq : q ≠ []) (h : c.Lacks q k) :
      Origin c .undefined (q ++ [k])
  | quoted (s : String) : Origin c (.literal s) []

/-- What an error says: that a name was to be read where a path leads to null or to nothing, or
that there is no such name. -/
inductive Explained (c : Document) : EvaluationError → Prop where
  | null {q : List String} (h : c.get? (q.map .key) = some .null) (k : String) :
      Explained c (.undefinedVariable q (some k))
  | absent {q : List String} {j : String} (hq : q ≠ []) (h : c.Lacks q j) (k : String) :
      Explained c (.undefinedVariable (q ++ [j]) (some k))
  | root (k : String) : Explained c (.undefinedVariable [k] none)

/-- The value of an answer belongs to its path, and the error says why there is none. -/
def Traced (c : Document) : Except EvaluationError Resolved → Prop
  | .ok r => Origin c r.value r.path
  | .error e => Explained c e

theorem Traced.bind {answer : Except EvaluationError Resolved}
    {f : Resolved → Except EvaluationError Resolved} (h : Traced c answer)
    (hf : ∀ r, Origin c r.value r.path → Traced c (f r)) : Traced c (answer.bind f) := by
  cases answer with
  | error e => exact h
  | ok r => exact hf r h

namespace Tree

variable {t : Tree} {v : Value} {path : List String} {k : String} {x : Resolved}

/-- Reading one name. -/
theorem traced_evaluateName (h : Origin c v path) (n : String) :
    Traced c (evaluateName n v path) := by
  have hreads := reads_evaluateName n v path
  generalize evaluateName n v path = answer at hreads ⊢
  cases hreads with
  | nullish hnullish =>
    cases h with
    | @found d path hd =>
      cases d with
      | null => exact .null hd n
      | _ => cases hnullish
    | absent hq hlacks => exact .absent hq hlacks n
    | quoted s => cases hnullish
  | found hp =>
    cases h with
    | found hd => exact .found ((get?_keys_concat hd n).trans hp)
    | _ => cases hp
  | missing => exact .root n
  | absent hn hp hpath =>
    -- Only a part of the context has a path and is not absent itself.
    cases h with
    | found hd =>
      refine .absent hpath ⟨_, hd, ?_, hp⟩
      rintro rfl
      cases hn
    | absent hq hlacks => cases hn
    | quoted s => exact absurd rfl hpath

/-- **Every step keeps values and paths together.** -/
theorem traced_evaluate (t : Tree) (h : Origin c v path) : Traced c (t.evaluate v path) := by
  induction t generalizing v path with
  | name s => exact traced_evaluateName h s
  | quoted s => exact .quoted s
  | group t ih => exact ih h
  | join con l r ihl ihr =>
    generalize hanswer : (join con l r).evaluate v path = answer
    cases con with
    | dot =>
      rw [← hanswer, evaluate_dot]
      exact (ihl h).bind fun base hbase ↦ ihr hbase
    | _ =>
      obtain hside | hside := evaluate_choice hanswer (by decide)
      · exact hside ▸ ihl h
      · exact hside ▸ ihr h

/-! ## Quoted texts -/

/-- The quoted texts of a tree. -/
def quotedTexts : Tree → List String
  | name _ => []
  | quoted s => [s]
  | group t => t.quotedTexts
  | join _ l r => l.quotedTexts ++ r.quotedTexts

/-- The left sides of all dots of a tree. -/
def bases : Tree → List Tree
  | name _ => []
  | quoted _ => []
  | group t => t.bases
  | join .dot l r => l :: (l.bases ++ r.bases)
  | join _ l r => l.bases ++ r.bases

/-- A value is a quoted text of the tree, without a path, or it is none and has one. -/
def QuotedOrPlaced (texts : List String) (x : Resolved) : Prop :=
  (x.path = [] ∧ ∃ s ∈ texts, x.value = .literal s) ∨ (x.path ≠ [] ∧ ∀ s, x.value ≠ .literal s)

theorem QuotedOrPlaced.mono {texts texts' : List String} (h : QuotedOrPlaced texts x)
    (hsub : texts ⊆ texts') : QuotedOrPlaced texts' x :=
  h.imp_left fun ⟨hpath, s, hs, hv⟩ ↦ ⟨hpath, s, hsub hs, hv⟩

/-- Whatever the context, the empty path is that of the quoted texts. -/
theorem quotedOrPlaced_of_evaluate (h : t.evaluate v path = .ok x) :
    QuotedOrPlaced t.quotedTexts x := by
  induction t generalizing v path x with
  | name s =>
    -- A name is appended to the path.
    have hreads : Reads s v path (.ok x) := h ▸ reads_evaluateName s v path
    cases hreads with
    | _ => exact .inr ⟨by simp, fun s hs ↦ by cases hs⟩
  | quoted s =>
    cases h
    exact .inl ⟨rfl, s, List.mem_cons_self, rfl⟩
  | group t ih => exact ih h
  | join con l r ihl ihr =>
    have hleft := List.subset_append_left l.quotedTexts r.quotedTexts
    have hright := List.subset_append_right l.quotedTexts r.quotedTexts
    cases con with
    | dot =>
      rw [evaluate_dot] at h
      obtain ⟨base, -, hr⟩ := bind_eq_ok_iff.mp h
      exact (ihr hr).mono hright
    | _ =>
      obtain hside | hside := evaluate_choice h (by decide)
      · exact (ihl hside).mono hleft
      · exact (ihr hside).mono hright

/-! ## Root names that are missing -/

/-- Without quoted texts to the left of dots, a root name is read at the root only. -/
theorem evaluate_eq_missing (hbases : ∀ b ∈ t.bases, b.quotedTexts = [])
    (h : t.evaluate v path = .error (.undefinedVariable [k] none)) :
    path = [] ∧ v.isNullish = false ∧ v.property? k = none ∧ k ∈ t.rootNames := by
  induction t generalizing v path with
  | name s =>
    have hreads : Reads s v path (.error (.undefinedVariable [k] none)) :=
      h ▸ reads_evaluateName s v path
    cases hreads with
    | missing hn hp hpath => exact ⟨hpath, hn, hp, List.mem_cons_self⟩
  | quoted s => cases h
  | group t ih => exact ih hbases h
  | join con l r ihl ihr =>
    cases con with
    | dot =>
      have hl : ∀ b ∈ l.bases, b.quotedTexts = [] :=
        fun b hb ↦ hbases b (List.mem_cons_of_mem _ (List.mem_append_left _ hb))
      have hr : ∀ b ∈ r.bases, b.quotedTexts = [] :=
        fun b hb ↦ hbases b (List.mem_cons_of_mem _ (List.mem_append_right _ hb))
      rw [evaluate_dot] at h
      obtain h | ⟨base, hbase, h⟩ := bind_eq_error_iff.mp h
      · exact ihl hl h
      -- The right side starts at a path, unless the left side is a quoted text.
      · have hnone : l.quotedTexts = [] := hbases l List.mem_cons_self
        obtain ⟨-, s, hs, -⟩ | ⟨hpath, -⟩ := quotedOrPlaced_of_evaluate hbase
        · rw [hnone] at hs
          cases hs
        · exact absurd (ihr hr h).1 hpath
    | _ =>
      have hl : ∀ b ∈ l.bases, b.quotedTexts = [] :=
        fun b hb ↦ hbases b (List.mem_append_left _ hb)
      have hr : ∀ b ∈ r.bases, b.quotedTexts = [] :=
        fun b hb ↦ hbases b (List.mem_append_right _ hb)
      obtain hside | hside := evaluate_choice h (by decide)
      · obtain ⟨hpath, hnullish, hp, hk⟩ := ihl hl hside
        exact ⟨hpath, hnullish, hp, List.mem_append_left _ hk⟩
      · obtain ⟨hpath, hnullish, hp, hk⟩ := ihr hr hside
        exact ⟨hpath, hnullish, hp, List.mem_append_right _ hk⟩

/-! ## The paths of an evaluation -/

/-- **The path of a value is where the value is.** From the root of the context, the path of a part
of it leads to this part, and is not empty. The path of an absent value leads, except for its last
key, to a value other than null that lacks this key. A quoted text is one of the tree and has the
empty path. A name that was to be read from a path was so because the path leads to null or to an
absent value. And where there are no quoted texts to the left of dots, a name is said to be missing
because the root, which is not null, lacks it, and it is among the names that the tree reads. -/
theorem evaluate_path (t : Tree) (c : Document) :
    match t.evaluate (.document c) [] with
    | .ok ⟨.document d, path⟩ => path ≠ [] ∧ c.get? (path.map .key) = some d
    | .ok ⟨.undefined, path⟩ => ∃ q k, path = q ++ [k] ∧ q ≠ [] ∧ c.Lacks q k
    | .ok ⟨.literal s, path⟩ => path = [] ∧ s ∈ t.quotedTexts
    | .error (.undefinedVariable q (some _)) =>
      c.get? (q.map .key) = some .null ∨ ∃ p j, q = p ++ [j] ∧ p ≠ [] ∧ c.Lacks p j
    | .error (.undefinedVariable path none) =>
      ∃ k, path = [k] ∧
        ((∀ b ∈ t.bases, b.quotedTexts = []) → c ≠ .null ∧ c.field? k = none ∧ k ∈ t.names [])
    | .error _ => False := by
  have htraced : Traced c (t.evaluate (.document c) []) := t.traced_evaluate (.found rfl)
  cases hanswer : t.evaluate (.document c) [] with
  | ok r =>
    rw [hanswer] at htraced
    have hquoted := quotedOrPlaced_of_evaluate hanswer
    obtain ⟨value, path⟩ := r
    cases htraced with
    | found h =>
      obtain ⟨-, s, -, hs⟩ | ⟨hpath, -⟩ := hquoted
      · cases hs
      · exact ⟨hpath, h⟩
    | absent hq h => exact ⟨_, _, rfl, hq, h⟩
    | quoted s =>
      obtain ⟨-, s', hs', heq⟩ | ⟨hpath, -⟩ := hquoted
      · cases heq
        exact ⟨rfl, hs'⟩
      · exact absurd rfl hpath
  | error e =>
    rw [hanswer] at htraced
    cases htraced with
    | null h k => exact .inl h
    | absent hq h k => exact .inr ⟨_, _, rfl, hq, h⟩
    | root k =>
      refine ⟨k, rfl, fun hbases ↦ ?_⟩
      obtain ⟨-, hnullish, hp, hk⟩ := evaluate_eq_missing hbases hanswer
      refine ⟨?_, hp, by rwa [names_nil]⟩
      rintro rfl
      cases hnullish

/-- Behind a quoted text, a name of the root is said to be missing. -/
example : (join .dot (quoted "s") (name "n")).evaluate
    (.document (.object [("n", .bool true)])) [] = .error (.undefinedVariable ["n"] none) := rfl

end Tree

end Interpolation
