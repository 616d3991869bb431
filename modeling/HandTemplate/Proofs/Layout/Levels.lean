import HandTemplate.Proofs.Grammar.Levels
import HandTemplate.Proofs.Layout.Spelling

/-!
# Levels of statements

As for expressions, the levels that statements take lie between what their trees need and the number
of their lexemes.
-/

namespace HandTemplate

namespace Grammar

variable {n : Nat}

/-- What is written with at most `n` lexemes takes no fewer levels than it needs and no more than it
has lexemes. -/
def Fits {α : Type} (n : Nat) (needs : α → Nat) (writing : Writing α) : Prop :=
  ∀ {k p rest a}, writing k p rest a → p.length ≤ n → needs a ≤ k ∧ k ≤ p.length

section
variable {statement : Writing Statement} (hstatement : Fits n (Statement.height 0) statement)
include hstatement

/-- Statements take no more levels than they have lexemes. -/
theorem statements_fit (ending : List Lexeme → List Lexeme → Prop) :
    Fits n (Statement.heights 0) (Statements statement ending) := by
  intro k p rest statements h hlength
  induction h with
  | done => exact ⟨Nat.le_refl _, Nat.zero_le _⟩
  | more _ hfirst _ ih =>
    simp only [List.length_append, Statement.heights] at hlength ⊢
    have hstatementFits := hstatement hfirst (by omega)
    have hothersFit := ih (by omega)
    omega

/-- A body takes no more levels than it has lexemes. -/
theorem body_fits : Fits n (Statement.heights 0) (Body statement) := by
  intro k p rest statements h hlength
  cases h with
  | braces _ hstatements =>
    simp only [List.length_append, List.length_cons] at hlength ⊢
    have hinner := statements_fit hstatement _ hstatements (by omega)
    omega
  | colonBraces _ hstatements =>
    simp only [List.length_append, List.length_cons] at hlength ⊢
    have hinner := statements_fit hstatement _ hstatements (by omega)
    omega
  | colon hstatements =>
    simp only [List.length_cons] at hlength ⊢
    have hinner := statements_fit hstatement _ hstatements (by omega)
    omega

end

/-- The head of a loop takes no more levels than it has lexemes. -/
theorem header_levels {k : Nat} {hs : List Lexeme} {binding : Binding} {source : Expr}
    (h : Header k hs binding source) : source.height 0 ≤ k ∧ k ≤ hs.length := by
  cases h with
  | plain _ hsource =>
    have hheight := height_le_levels hsource
    have hlength := levels_le_length hsource
    simp only [List.length_append, List.length_cons]
    omega
  | wrapped _ hsource =>
    have hheight := height_le_levels hsource
    have hlength := levels_le_length hsource
    simp only [List.length_append, List.length_cons]
    omega

/-- A statement takes no more levels than it has lexemes. -/
theorem written_fits (n : Nat) : Fits n (Statement.height 0) Written := by
  induction n with
  | zero =>
    intro k p rest s h hlength
    -- No statement is written with no lexemes.
    obtain ⟨t, q, rfl, -⟩ := written_opens h
    exact absurd hlength (Nat.not_succ_le_zero _)
  | succ n ih =>
    intro k p rest s h hlength
    cases h with
    | assign _ hvalue _ =>
      have hheight := height_le_levels hvalue
      have hvalueLength := levels_le_length hvalue
      simp only [List.length_append, List.length_cons, Statement.height]
      omega
    | call harguments =>
      have hseries := series_bounded (expression_bounded _) _ harguments (Nat.le_refl _)
      simp only [List.length_cons, Statement.height]
      omega
    | foreach hheader hbody =>
      simp only [List.length_cons, List.length_append, Statement.height] at hlength ⊢
      have hsource := header_levels hheader
      -- The word that begins the loop makes its body shorter.
      have hinner := body_fits ih hbody (by omega)
      omega

/-- A variations block takes no fewer levels than its statements need and no more than it has
lexemes. -/
theorem block_levels {k : Nat} {p rest : List Lexeme} {statements : List Statement}
    (h : Block k p rest statements) : Statement.heights 0 statements ≤ k ∧ k ≤ p.length := by
  cases h with
  | plain hbody =>
    have hstatements := body_fits (written_fits _) hbody (Nat.le_refl _)
    rw [List.length_cons]
    omega
  | equals hbody =>
    have hstatements := body_fits (written_fits _) hbody (Nat.le_refl _)
    rw [List.length_cons, List.length_cons]
    omega

end Grammar

end HandTemplate
