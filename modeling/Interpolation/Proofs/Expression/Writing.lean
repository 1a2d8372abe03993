import Interpolation.Proofs.Expression.Grammar
import Interpolation.Proofs.Expression.Lexing

/-!
# Writing expressions

Every tree that the reader could build is built from some text: from its own tokens, written with a
blank in front of each of them, so that no token can continue the one before it.
-/

namespace Interpolation

namespace Token

/-- The tokens with a blank in front of each. -/
def spaced (toks : List Token) : List Char := toks.flatMap fun tok ↦ ' ' :: tok.text

variable {tok : Token} {toks : List Token}

theorem spaced_cons (tok : Token) (toks : List Token) :
    spaced (tok :: toks) = [' '] ++ (tok.text ++ spaced toks) := rfl

theorem endsBefore_spaced (tok : Token) (toks : List Token) : tok.EndsBefore (spaced toks) := by
  cases toks with
  | nil => cases tok <;> simp [EndsBefore, spaced]
  | cons next toks => exact endsBefore_blank (by decide) _

theorem lexes_spaced (h : ∀ tok ∈ toks, tok.Valid) : Lexes (spaced toks) toks [] := by
  induction toks with
  | nil =>
    have hnone : ∀ x ∈ ([] : List Char), isBlank x := fun x hx ↦ by cases hx
    exact .nil hnone
  | cons tok toks ih =>
    have hblank : ∀ x ∈ [' '], isBlank x := by
      intro x hx
      rw [List.mem_singleton.mp hx]
      decide
    rw [spaced_cons]
    exact .cons hblank (h tok List.mem_cons_self) (tok.endsBefore_spaced toks)
      (ih fun tok' htok' ↦ h tok' (List.mem_cons_of_mem tok htok'))

end Token

namespace Tree

variable {text : List Char} {t : Tree}

/-- A text that consists of the tokens of a tree is read as this tree, if the tree is canonical and
not nested too deeply. -/
theorem read_of_lexes (h : Lexes text t.tokens []) (hcan : t.Canonical)
    (hn : t.nesting ≤ maxLevels) (offset : Nat) : read text offset = .ok t := by
  have hstart : Lexes (Cursor.start text offset).rest t.tokens [] := h
  obtain ⟨ls, hscans, htoks⟩ := Cursor.exists_scans_of_lexes hstart
  exact read_of_phrase hscans (phrase_or_nil_iff.mpr ⟨htoks, hcan⟩) hn

/-- **Reading what was written.** -/
theorem read_spaced (hcan : t.Canonical) (hn : t.nesting ≤ maxLevels)
    (hvalid : ∀ tok ∈ t.tokens, tok.Valid) (offset : Nat) :
    read (Token.spaced t.tokens) offset = .ok t :=
  read_of_lexes (Token.lexes_spaced hvalid) hcan hn offset

end Tree

end Interpolation
