import HandTemplate.Proofs.Grammar.Atom

/-!
# Reading operands

The indices after an atom are read one by one, each with the room that the atom had.
-/

namespace HandTemplate

namespace Expr

open Grammar Outcome Rule

variable {limit room : Nat}

/-- Without a bracket there is no index. -/
theorem indices_done (inner : Option (Rule Expr)) (target : Expr) {ts : List Lexeme}
    (h : ∀ t ∈ ts.head?, t.token ≠ .mark .leftBracket) :
    pair (indices limit inner target ts) = .ok (target, ts) := by
  unfold indices
  split
  · exact absurd rfl (h _ rfl)
  · rfl

/-- An index and those after it, in terms of what the expression gives as a pair. -/
theorem indices_more (inner : Option (Rule Expr)) (target : Expr) (opened : Position)
    (ts : List Lexeme) :
    pair (indices limit inner target (⟨.mark .leftBracket, opened⟩ :: ts)) =
      (oneDeeper limit inner opened >>= fun rule => rule.run (dropNewlines ts)) >>= fun place =>
        match dropNewlines place.2 with
        | [] => .error (.unclosed .bracket opened)
        | t :: after =>
          if t.token = .mark .rightBracket then
            pair (indices limit inner (.index target place.1 opened) after)
          else .error (expecting "']'" (t :: after)) := by
  rw [bind_assoc]
  conv => lhs; unfold indices
  cases oneDeeper limit inner opened with
  | error e => rfl
  | ok rule =>
    refine pair_bind _ fun place => ?_
    -- The cases of the rule's own match: nothing left, the closing bracket, and any other token.
    split
    next heq =>
      simp only [heq]
      rfl
    next after heq =>
      simp only [heq, if_true]
      exact pair_widen _ _
    next t after hclosed heq =>
      simp only [heq]
      rw [if_neg fun ht => hclosed _ (lexeme_eq ht)]
      rfl

/-- What comes after an atom and its indices starts with no index. -/
theorem indices_free {expression : Spelling Expr} {target e : Expr} {k : Nat}
    {q ps rest : List Lexeme} (h : Indices expression target k ps e)
    (hfree : Free [.leftBracket] (q ++ ps) rest) : Free [] q (ps ++ rest) := by
  cases h with
  | done =>
    rw [List.append_nil] at hfree
    exact hfree.mono nofun
  | more => exact free_cons nofun nofun

/-- Indices are read if expressions with less room are. -/
theorem indices_reads
    (hinner : ∀ r, room = r + 1 → Reads limit r Expression Follow (parse limit r))
    {target e : Expr} {k : Nat} {q ps rest : List Lexeme}
    (h : Indices Expression target k ps e) (hfree : Free [.leftBracket] (q ++ ps) rest) :
    Within limit k room (pair (indices limit (nested limit room) target (ps ++ rest)))
      (e, rest) := by
  -- By induction on the indices, each of which has the operand so far as its target.
  induction h generalizing q with
  | done =>
    rw [List.nil_append, indices_done _ _ fun t ht => (hfree t ht).1 _ (List.mem_cons_self ..)]
    exact Within.ok _
  | @more target place e opened c k m ns p ns' ps hns hexpr hns' _ ih =>
    have hshape : q ++ ⟨.mark .leftBracket, opened⟩ ::
          (ns ++ (p ++ (ns' ++ ⟨.mark .rightBracket, c⟩ :: ps))) =
        (q ++ ⟨.mark .leftBracket, opened⟩ :: (ns ++ (p ++ (ns' ++ [⟨.mark .rightBracket, c⟩])))) ++
          ps := by
      simp
    rw [hshape] at hfree
    rw [List.cons_append, indices_more, nested_eq]
    -- The index takes a level; the indices after it are read with all the room again.
    refine Within.bind (a := (place, ns' ++ ⟨.mark .rightBracket, c⟩ :: (ps ++ rest)))
      (Within.deeper _ fun r hr => ?_) ?_
    · obtain ⟨t, p', rfl, hnewline, -⟩ := expression_opens hexpr
      have hread := hinner r hr hexpr (follow_separable.newlines hns'
        (t := ⟨.mark .rightBracket, c⟩) (.inr (.inr ⟨.bracket, rfl⟩)) (t :: p') (ps ++ rest))
      simp only [List.append_assoc, List.cons_append] at hread ⊢
      rw [dropNewlines_append hns hnewline]
      exact hread
    · dsimp only
      rw [dropNewlines_append hns' (t := ⟨.mark .rightBracket, c⟩) nofun, ← nested_eq]
      exact ih hfree

/-- Indices are all that is read after a target. -/
theorem indices_sound (hinner : ∀ r, room = r + 1 → Sound r Expression Follow (parse limit r))
    {target e : Expr} {q ts rest : List Lexeme} (hfree : Free [] q ts)
    (h : pair (indices limit (nested limit room) target ts) = .ok (e, rest)) :
    ∃ k ps, k ≤ room ∧ ts = ps ++ rest ∧ Indices Expression target k ps e ∧
      Free [.leftBracket] (q ++ ps) rest := by
  -- By induction on the number of lexemes, of which an index takes some.
  induction hlength : ts.length using Nat.strongRecOn generalizing target q ts with
  | ind n ih =>
  subst hlength
  rcases mark_or_not .leftBracket ts with ⟨opened, ts, rfl⟩ | hhead
  · rw [indices_more] at h
    obtain ⟨⟨place, left⟩, hplace, h⟩ := bind_eq_ok.mp h
    rw [nested_eq, deeper_eq_ok] at hplace
    obtain ⟨r, rfl, hplace⟩ := hplace
    obtain ⟨ns, hns, hts⟩ := exists_newlines ts
    obtain ⟨k, p, hk, hp, hspelled, -⟩ := hinner r rfl hplace
    obtain ⟨ns', hns', hleft⟩ := exists_newlines left
    rw [hp] at hts
    dsimp only at h
    split at h
    · cases h
    next t after hdrop =>
    rw [hleft, hdrop] at hts
    split at h
    next hclosed =>
      rw [lexeme_eq hclosed] at hts
      have hshorter : after.length < (⟨.mark .leftBracket, opened⟩ :: ts : List Lexeme).length := by
        rw [hts]
        simp only [List.length_append, List.length_cons]
        omega
      -- Before the further indices stand all lexemes up to the bracket that closes this one.
      have hq : Free [] (q ++ ⟨.mark .leftBracket, opened⟩ ::
          (ns ++ (p ++ (ns' ++ [⟨.mark .rightBracket, t.position⟩])))) after :=
        free_of_not_endsInName (by simp) _
      obtain ⟨m, ps, hm, hps, hindices, hfree⟩ := ih _ hshorter hq h rfl
      rw [hts, hps]
      exact ⟨max (k + 1) m, _, by omega, by simp,
        .more (c := t.position) hns hspelled hns' hindices, by simpa using hfree⟩
    · cases h
  · rw [indices_done _ _ hhead] at h
    cases h
    refine ⟨0, [], Nat.zero_le _, rfl, .done, ?_⟩
    rw [List.append_nil]
    exact hfree.cons hhead

/-- Operands in terms of what atoms and indices give as pairs. -/
theorem operand_run (inner : Option (Rule Expr)) (ts : List Lexeme) :
    run (operand limit inner) ts =
      run (atom limit inner) ts >>= fun first => pair (indices limit inner first.1 first.2) :=
  pair_bind _ fun _ => pair_widen _ _

/-- Operands are read if expressions with less room are. -/
theorem operand_reads
    (hinner : ∀ r, room = r + 1 → Reads limit r Expression Follow (parse limit r)) :
    Reads limit room (Operand Expression) (Free [.leftBracket])
      (operand limit (nested limit room)) := by
  rintro k p e rest ⟨hatom, hindices⟩ hfree
  rw [operand_run, List.append_assoc]
  exact (atom_reads hinner hatom (indices_free hindices hfree)).bind
    (indices_reads hinner hindices hfree)

/-- The rule for operands reads nothing but operands if the rules for expressions with less room
read nothing but expressions. -/
theorem operand_sound (hinner : ∀ r, room = r + 1 → Sound r Expression Follow (parse limit r)) :
    Sound room (Operand Expression) (Free [.leftBracket])
      (operand limit (nested limit room)) := by
  intro ts e rest h
  rw [operand_run] at h
  obtain ⟨⟨target, left⟩, htarget, hplaces⟩ := bind_eq_ok.mp h
  obtain ⟨k, p, hk, rfl, hatom, hfirst⟩ := atom_sound hinner htarget
  obtain ⟨m, ps, hm, rfl, hindices, hfree⟩ := indices_sound hinner hfirst hplaces
  exact ⟨max k m, p ++ ps, by omega, by simp, ⟨hatom, hindices⟩, hfree⟩

end Expr

end HandTemplate
