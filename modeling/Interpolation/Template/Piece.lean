import Interpolation.Text.Basic

/-!
# Cutting a template

A span is an opening mark, a body without closing braces, and the closing mark. Since the body has
no closing brace, whether a span begins at an opening mark is decided by the first closing brace
after it: the next character must be another one. An opening mark without that is plain text, and
so may contain a span further on.

A template is cut from left to right at the first span each time. The pieces put together give the
template back, and no piece of plain text is empty.
-/

namespace Interpolation

/-- A part of a template. -/
inductive Piece where
  | plain (text : List Char)
  /-- A span, given by its body. -/
  | span (body : List Char)
  deriving DecidableEq, Repr

namespace Piece

/-- What begins a span. -/
def opening : List Char := ['$', '{', '{']

/-- What ends a span. -/
def closing : List Char := ['}', '}']

/-- The text of a piece. -/
def text : Piece → List Char
  | plain t => t
  | span body => opening ++ body ++ closing

/-- The body of a span that begins here, and the text after the span. -/
def openSpan? : List Char → Option (List Char × List Char)
  | '$' :: '{' :: '{' :: cs =>
    match cs.dropWhile (· ≠ '}') with
    | '}' :: '}' :: rest => some (cs.takeWhile (· ≠ '}'), rest)
    | _ => none
  | _ => none

/-- The text before the first span, the body of that span, and the text after it. -/
def findSpan? : List Char → Option (List Char × List Char × List Char)
  | [] => none
  | c :: cs =>
    match openSpan? (c :: cs) with
    | some (body, rest) => some ([], body, rest)
    | none => (findSpan? cs).map fun (before, body, rest) ↦ (c :: before, body, rest)

theorem notMem_takeWhile_ne (x : Char) (cs : List Char) : x ∉ cs.takeWhile (· ≠ x) := by
  induction cs with
  | nil => simp
  | cons c cs ih =>
    rw [List.takeWhile_cons]
    split
    · rename_i h
      have : x ≠ c := fun e ↦ by simp [e] at h
      simpa [this] using ih
    · simp

theorem openSpan?_eq {cs body rest : List Char} (h : openSpan? cs = some (body, rest)) :
    cs = opening ++ body ++ closing ++ rest ∧ '}' ∉ body := by
  unfold openSpan? at h
  split at h
  · rename_i cs
    split at h
    · rename_i rest' hd
      simp only [Option.some.injEq, Prod.mk.injEq] at h
      obtain ⟨rfl, rfl⟩ := h
      refine ⟨?_, notMem_takeWhile_ne '}' cs⟩
      have hcs := List.takeWhile_append_dropWhile (p := (· ≠ '}')) (l := cs)
      rw [hd] at hcs
      rw [← List.append_cancel_left_eq opening] at hcs
      rw [List.append_assoc, List.append_assoc]
      exact hcs.symm
    · simp at h
  · simp at h

theorem findSpan?_eq {cs before body rest : List Char}
    (h : findSpan? cs = some (before, body, rest)) :
    cs = before ++ (opening ++ body ++ closing) ++ rest ∧ '}' ∉ body := by
  fun_induction findSpan? cs generalizing before with
  | case1 => simp at h
  | case2 c cs body' rest' ho =>
    simp only [Option.some.injEq, Prod.mk.injEq] at h
    obtain ⟨rfl, rfl, rfl⟩ := h
    simpa using openSpan?_eq ho
  | case3 c cs _ ih =>
    obtain ⟨⟨b, x, r⟩, hf, he⟩ := Option.map_eq_some_iff.1 h
    simp only [Prod.mk.injEq] at he
    obtain ⟨rfl, rfl, rfl⟩ := he
    obtain ⟨h₁, h₂⟩ := ih hf
    exact ⟨by rw [List.cons_append, List.cons_append, ← h₁], h₂⟩

/-- A piece of plain text, unless it is empty. -/
def plain? (text : List Char) : List Piece := if text = [] then [] else [plain text]

/-- The pieces of a template. -/
def cut (cs : List Char) : List Piece :=
  match _h : findSpan? cs with
  | none => plain? cs
  | some (before, body, rest) => plain? before ++ span body :: cut rest
termination_by cs.length
decreasing_by
  have := congrArg List.length (findSpan?_eq _h).1
  simp only [List.length_append, opening, closing, List.length_cons] at this
  omega

end Piece

end Interpolation
