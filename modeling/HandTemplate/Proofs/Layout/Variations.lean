import HandTemplate.Program.Parser
import HandTemplate.Proofs.Layout.Levels
import HandTemplate.Proofs.Layout.Statement
import HandTemplate.Proofs.Layout.Writable

/-!
# Reading the variations block

However the statements of a variations block are laid out, they are read back as they are.
-/

namespace HandTemplate

namespace Program

open Grammar Rule

variable {limit : Nat}

/-- A body may follow an equals sign. -/
theorem variations_equals (p q : Position) (ts : List Lexeme) :
    run (variations limit) (⟨.keyword .variations, p⟩ :: ⟨.mark .equals, q⟩ :: ts) =
      run (Statement.body (Statement.parse limit limit) expectedBody) ts := by
  rw [run_eq_pair, variations]
  exact pair_widen _ _

/-- A body may follow the word. -/
theorem variations_plain (p : Position) {ts : List Lexeme}
    (h : ∀ t ∈ ts.head?, t.token ≠ .mark .equals) :
    run (variations limit) (⟨.keyword .variations, p⟩ :: ts) =
      run (Statement.body (Statement.parse limit limit) expectedBody) ts := by
  rw [run_eq_pair, variations]
  · exact pair_widen _ _
  · exact ne_mark_cons h

/-- No body begins with an equals sign. -/
theorem body_head {k : Nat} {p rest : List Lexeme} {statements : List Statement}
    (h : Body Written k p rest statements) : ∀ t ∈ (p ++ rest).head?, t.token ≠ .mark .equals := by
  -- A brace or a colon comes first, with newlines only in front of a brace.
  cases h with
  | @braces ns _ _ _ _ _ hns =>
    cases ns with
    | nil =>
      rintro t ⟨⟩
      exact nofun
    | cons n ns =>
      rintro t ⟨⟩
      rw [hns _ (List.mem_cons_self ..)]
      exact nofun
  | colonBraces =>
    rintro t ⟨⟩
    exact nofun
  | colon =>
    rintro t ⟨⟩
    exact nofun

/-- The variations block is read if there is room for its levels, and is otherwise too deep. -/
theorem variations_reads (limit : Nat) : ReadsWriting limit limit Block (variations limit) := by
  intro k p rest statements h
  cases h with
  | plain hbody =>
    rw [List.cons_append, variations_plain _ (body_head hbody)]
    exact Statement.body_reads (Statement.parse_reads limit limit) _ hbody
  | equals hbody =>
    rw [List.cons_append, List.cons_append, variations_equals]
    exact Statement.body_reads (Statement.parse_reads limit limit) _ hbody

/-- Only variations blocks are read, and only such as there is room for. -/
theorem variations_sound (limit : Nat) : SoundWriting limit Block (variations limit) := by
  intro ts statements rest h
  rcases ts with _ | ⟨⟨token, p⟩, ts⟩
  · cases h
  cases token with
  | keyword word =>
    cases word with
    | variations =>
      rcases mark_or_not .equals ts with ⟨q, ts, rfl⟩ | hhead
      · rw [variations_equals] at h
        obtain ⟨k, ps, hk, rfl, hbody⟩ :=
          Statement.body_sound (Statement.parse_sound limit limit) _ h
        exact ⟨k, _, hk, rfl, .equals hbody⟩
      · rw [variations_plain _ hhead] at h
        obtain ⟨k, ps, hk, rfl, hbody⟩ :=
          Statement.body_sound (Statement.parse_sound limit limit) _ h
        exact ⟨k, _, hk, rfl, .plain hbody⟩
    | _ => cases h
  | _ => cases h

/-- Every list of statements can be written as a variations block, and however it is written, in
front of whatever may follow, exactly these statements are read back with a limit on nesting no
smaller than the number of lexemes. -/
theorem variations_layouts (statements : List Statement) :
    (∃ k p, ∀ rest, Block k p rest statements) ∧
      ∀ {k p rest limit}, Block k p rest statements → p.length ≤ limit →
        (variations limit).run (p ++ rest) = .ok (statements, rest) := by
  constructor
  · exact exists_block statements
  · intro k p rest limit h hlimit
    exact (variations_reads limit h).1 (Nat.le_trans (block_levels h).2 hlimit)

/-- A loop whose body stays open ends where the braces around it are closed. -/
theorem variations_open_loop :
    (variations 12).run
      [⟨.keyword .variations, ⟨1, 1⟩⟩, ⟨.mark .leftBrace, ⟨1, 12⟩⟩, ⟨.keyword .foreach, ⟨1, 14⟩⟩,
        ⟨.identifier "x", ⟨1, 22⟩⟩, ⟨.keyword .within, ⟨1, 24⟩⟩, ⟨.identifier "y", ⟨1, 27⟩⟩,
        ⟨.mark .colon, ⟨1, 28⟩⟩, ⟨.identifier "f", ⟨1, 30⟩⟩, ⟨.mark .leftParen, ⟨1, 31⟩⟩,
        ⟨.identifier "x", ⟨1, 32⟩⟩, ⟨.mark .rightParen, ⟨1, 33⟩⟩, ⟨.mark .rightBrace, ⟨1, 35⟩⟩] =
      .ok ([.foreach (.name "x") (.identifier "y" ⟨1, 27⟩)
        [.call "f" [.identifier "x" ⟨1, 32⟩] ⟨1, 30⟩] ⟨1, 14⟩], []) := by
  let close : Lexeme := ⟨.mark .rightBrace, ⟨1, 35⟩⟩
  have hnone : Separators [] := nofun
  have hcall : Written _ [⟨.identifier "f", ⟨1, 30⟩⟩, ⟨.mark .leftParen, ⟨1, 31⟩⟩,
      ⟨.identifier "x", ⟨1, 32⟩⟩, ⟨.mark .rightParen, ⟨1, 33⟩⟩] [close]
      (.call "f" [.identifier "x" ⟨1, 32⟩] ⟨1, 30⟩) :=
    .call (.last newlines_nil (Atom.expression .identifier) newlines_nil)
  -- The brace ends the loop's body and is left for the block, which it ends as well.
  have hopen : Statements Written Ended _ _ [close] [.call "f" [.identifier "x" ⟨1, 32⟩] ⟨1, 30⟩] :=
    .more hnone hcall (.done hnone (.left (by rintro t ⟨⟩; rfl)))
  have hloop : Written _ _ [close] (.foreach (.name "x") (.identifier "y" ⟨1, 27⟩)
      [.call "f" [.identifier "x" ⟨1, 32⟩] ⟨1, 30⟩] ⟨1, 14⟩) :=
    .foreach (.plain (i := ⟨1, 24⟩) (.name (p := ⟨1, 22⟩)) (Atom.expression .identifier))
      (.colon (p := ⟨1, 28⟩) hopen)
  have hblock : Block _ _ [] _ :=
    .plain (p := ⟨1, 1⟩) (.braces (p := ⟨1, 12⟩) newlines_nil
      (.more hnone hloop (.done hnone (.brace (p := ⟨1, 35⟩)))))
  exact (variations_layouts _).2 hblock (by decide)

end Program

end HandTemplate
