import HandTemplate.Proofs.Grammar.Chain
import HandTemplate.Proofs.Grammar.Levels

/-!
# Reading expressions

The rule for expressions reads exactly the expressions of the grammar. The rules for different rooms
are defined from one another, and the proofs go by induction on the room.
-/

namespace HandTemplate

namespace Expr

open Grammar Rule

variable {limit room : Nat}

/-- Products are read with the levels that they take, where a level deeper expressions are. -/
theorem product_reads
    (hinner : ∀ r < room, Reads limit r Expression Follow (parse limit r)) :
    Reads limit room Product (Free [.star, .leftBracket]) (product limit room) := by
  unfold product
  refine chain_reads (by decide) (by decide) (operand_opens _) fun m hm => ?_
  rw [factor_eq]
  exact operand_reads fun r hr => hinner r (by omega)

/-- An expression is read if there is room for its levels, and is otherwise too deep. -/
theorem parse_reads (limit room : Nat) : Reads limit room Expression Follow (parse limit room) := by
  induction room using Nat.strongRecOn with
  | ind room ih =>
    -- Delimiters inside take a level of the room, so what stands in them has less.
    rintro k p e rest ⟨hsum⟩ hfree
    unfold parse
    exact chain_reads (by decide) (by decide) product_opens
      (fun m hm => product_reads fun r hr => ih r (by omega)) hsum hfree

/-- Nothing but products is read, where a level deeper nothing but expressions is. -/
theorem product_sound (hinner : ∀ r < room, Sound r Expression Follow (parse limit r)) :
    Sound room Product (Free [.star, .leftBracket]) (product limit room) := by
  unfold product
  refine chain_sound (operand_opens _) fun m hm => ?_
  rw [factor_eq]
  exact operand_sound fun r hr => hinner r (by omega)

/-- Only expressions are read, and only such as there is room for. -/
theorem parse_sound (limit room : Nat) : Sound room Expression Follow (parse limit room) := by
  induction room using Nat.strongRecOn with
  | ind room ih =>
    intro ts e rest h
    unfold parse at h
    obtain ⟨k, p, hk, hp, hsum, hfree⟩ := chain_sound product_opens
      (fun m hm => product_sound fun r hr => ih r (by omega)) h
    exact ⟨k, p, hk, hp, ⟨hsum⟩, hfree⟩

/-- With room for as many levels as there are lexemes, an expression is read in front of some
lexemes exactly if the lexemes before them spell it and those after it do not continue it. -/
theorem parse_eq_ok_iff {ts : List Lexeme} (hroom : ts.length ≤ room) (e : Expr)
    (rest : List Lexeme) :
    (parse limit room).run ts = .ok (e, rest) ↔
      ∃ k p, ts = p ++ rest ∧ Expression k p e ∧ Follow p rest := by
  constructor
  · intro h
    obtain ⟨k, p, -, hp, hspelled, hfree⟩ := parse_sound limit room h
    exact ⟨k, p, hp, hspelled, hfree⟩
  · rintro ⟨k, p, rfl, hspelled, hfree⟩
    have hk := levels_le_length hspelled
    rw [List.length_append] at hroom
    exact (parse_reads limit room hspelled hfree).1 (by omega)

/-- A product at the end of the text is read whole. -/
theorem parse_product_eq_ok :
    (parse 3 3).run [⟨.identifier "x", ⟨1, 1⟩⟩, ⟨.mark .star, ⟨1, 3⟩⟩, ⟨.integer 2, ⟨1, 5⟩⟩] =
      .ok (.binary .mul (.identifier "x" ⟨1, 1⟩) (.number 2 ⟨1, 5⟩) ⟨1, 3⟩, []) := by
  have hspelled : Expression _ _
      (.binary .mul (.identifier "x" ⟨1, 1⟩) (.number 2 ⟨1, 5⟩) ⟨1, 3⟩) :=
    .intro (.intro (.intro (.intro .identifier .done) (.more (.intro .number .done) .done)) .done)
  exact (parse_eq_ok_iff (by decide) _ _).mpr ⟨_, _, rfl, hspelled, free_nil _ _⟩

end Expr

end HandTemplate
