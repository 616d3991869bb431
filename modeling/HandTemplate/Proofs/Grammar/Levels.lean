import HandTemplate.Proofs.Grammar.Depth
import HandTemplate.Proofs.Grammar.Spelling

/-!
# Levels, trees and lexemes

The levels of nesting that a spelling takes lie between what its tree needs and the number of its
lexemes: every part but a left operand and the target of an index takes a level, and every level
belongs to a delimiter or an operator of its own.
-/

namespace HandTemplate

namespace Grammar

variable {α : Type} {n : Nat}

/-- Spellings of at most `n` lexemes take no fewer levels than their trees need and no more than
they have lexemes. -/
def Bounded (n : Nat) (needs : α → Nat) (item : Spelling α) : Prop :=
  ∀ {k p a}, item k p a → p.length ≤ n → needs a ≤ k ∧ k ≤ p.length

section
variable {expression : Spelling Expr} (hexpression : Bounded n (Expr.height 0) expression)
include hexpression

/-- Items in delimiters take no more levels than they have lexemes. -/
theorem series_bounded (d : Delimiter) :
    Bounded n (Expr.heights 0) (Series expression d) := by
  intro k p es h hlength
  induction h with
  | done => exact ⟨Nat.le_refl _, Nat.zero_le _⟩
  | last _ hspelled _ =>
    simp only [List.length_append, Expr.heights] at hlength ⊢
    have hlast := hexpression hspelled (by omega)
    omega
  | more _ hspelled _ _ ih =>
    simp only [List.length_append, List.length_cons, Expr.heights] at hlength ⊢
    have hfirst := hexpression hspelled (by omega)
    have hothers := ih (by omega)
    omega

/-- A group takes no more levels than it has lexemes. -/
theorem group_bounded : Bounded (n + 1) (Expr.height 0) (Group expression) := by
  intro k p e h hlength
  cases h with
  | unit => simp [Expr.height, Expr.heights]
  | parens _ hspelled _ =>
    -- The level of the delimiters is kept although the tree has no node for them.
    simp only [List.length_append, List.length_cons] at hlength ⊢
    have hinner := hexpression hspelled (by omega)
    omega
  | tuple _ hspelled _ hseries =>
    simp only [List.length_append, List.length_cons, Expr.height, Expr.heights] at hlength ⊢
    have hfirst := hexpression hspelled (by omega)
    have hothers := series_bounded hexpression _ hseries (by omega)
    omega

/-- An atom takes no more levels than it has lexemes. -/
theorem atom_bounded : Bounded (n + 1) (Expr.height 0) (Atom expression) := by
  intro k p e h hlength
  cases h with
  | call hseries =>
    simp only [List.length_cons, Expr.height] at hlength ⊢
    have harguments := series_bounded hexpression _ hseries (by omega)
    omega
  | paren hgroup => exact group_bounded hexpression hgroup hlength
  | bracket hseries =>
    simp only [List.length_cons, Expr.height] at hlength ⊢
    have helements := series_bounded hexpression _ hseries (by omega)
    omega
  | _ => simp [Expr.height]

/-- Indices need what their target needs, or a level each. -/
theorem indices_bounded {target e : Expr} {k : Nat} {p : List Lexeme}
    (h : Indices expression target k p e) (hlength : p.length ≤ n + 1) :
    e.height 0 ≤ max (target.height 0) k ∧ k ≤ p.length := by
  induction h with
  | done => exact ⟨Nat.le_max_left _ _, Nat.zero_le _⟩
  | more _ hspelled _ _ ih =>
    -- The tree so far becomes the target of the index, which needs nothing for being one.
    simp only [List.length_append, List.length_cons, Expr.height] at hlength ih ⊢
    have hplace := hexpression hspelled (by omega)
    have hothers := ih (by omega)
    omega

/-- An operand takes no more levels than it has lexemes. -/
theorem operand_bounded : Bounded (n + 1) (Expr.height 0) (Operand expression) := by
  rintro k p e ⟨hatom, hindices⟩ hlength
  rw [List.length_append] at hlength ⊢
  have htarget := atom_bounded hexpression hatom (by omega)
  have hplaces := indices_bounded hexpression hindices (by omega)
  omega

end

section
variable {operator : Operator} {mark : Mark} {item : Spelling Expr}
  (hitem : Bounded n (Expr.height 0) item)
include hitem

/-- The operators of a chain need what its first part needs, or a level each. -/
theorem tail_bounded {left e : Expr} {k : Nat} {p : List Lexeme}
    (h : Tail operator mark item left k p e) (hlength : p.length ≤ n) :
    e.height 0 ≤ max (left.height 0) k ∧ k ≤ p.length := by
  induction h with
  | done => exact ⟨Nat.le_max_left _ _, Nat.zero_le _⟩
  | more hspelled _ ih =>
    -- The tree so far becomes the left operand, which needs nothing for being one.
    simp only [List.length_append, List.length_cons, Expr.height] at hlength ih ⊢
    have hright := hitem hspelled (by omega)
    have hothers := ih (by omega)
    omega

/-- A chain of operators takes no more levels than it has lexemes. -/
theorem chain_bounded : Bounded n (Expr.height 0) (Chain operator mark item) := by
  rintro k p e ⟨hspelled, htail⟩ hlength
  rw [List.length_append] at hlength ⊢
  have hleft := hitem hspelled (by omega)
  have hothers := tail_bounded hitem htail (by omega)
  omega

end

/-- An expression takes no more levels than it has lexemes. -/
theorem expression_bounded (n : Nat) : Bounded n (Expr.height 0) Expression := by
  induction n with
  | zero =>
    -- No expression is spelled by no lexemes.
    intro k p e h hlength
    obtain ⟨t, q, rfl, -⟩ := expression_opens h
    exact absurd hlength (Nat.not_succ_le_zero _)
  | succ n ih =>
    -- Expressions inside delimiters are shorter by the mark that opens.
    rintro k p e ⟨hsum⟩ hlength
    exact chain_bounded (chain_bounded (operand_bounded ih)) hsum hlength

/-- An expression takes no more levels than it has lexemes. -/
theorem levels_le_length {k : Nat} {p : List Lexeme} {e : Expr} (h : Expression k p e) :
    k ≤ p.length :=
  (expression_bounded _ h (Nat.le_refl _)).2

/-- An expression takes no fewer levels than its tree needs. -/
theorem height_le_levels {k : Nat} {p : List Lexeme} {e : Expr} (h : Expression k p e) :
    e.height 0 ≤ k :=
  (expression_bounded _ h (Nat.le_refl _)).1

end Grammar

end HandTemplate
