import HandTemplate.Proofs.Grammar.Series

/-!
# Reading atoms

The rule for atoms reads exactly the atoms, if the rules with less room read exactly the
expressions.
-/

namespace HandTemplate

namespace Expr

open Grammar Outcome Rule

variable {limit room : Nat}

/-- What stands between delimiters is parsed one level deeper, if there is one. -/
theorem nested_eq (limit room : Nat) : nested limit room = below (parse limit) room := by
  cases room <;> rfl

/-- A parenthesis that is closed at once holds the empty list. -/
theorem inParens_closed (inner : Rule Expr) (opened : Position) {ts after : List Lexeme}
    {c : Position} (h : dropNewlines ts = ⟨.mark .rightParen, c⟩ :: after) :
    run (inParens inner opened) ts = .ok (.tuple [] opened, after) := by
  rw [run_eq_pair]
  unfold inParens
  split
  next heq =>
    rw [h] at heq
    cases heq
    rfl
  next heq => exact absurd h (heq _ _)

/-- Any other parenthesis, in terms of what its expressions give as pairs. -/
theorem inParens_run (inner : Rule Expr) (opened : Position) {ts : List Lexeme}
    (h : ∀ c after, dropNewlines ts ≠ ⟨.mark .rightParen, c⟩ :: after) :
    run (inParens inner opened) ts =
      inner.run (dropNewlines ts) >>= fun first =>
        match dropNewlines first.2 with
        | [] => .error (.unclosed .paren opened)
        | t :: after =>
          if t.token = .mark .rightParen then .ok (first.1, after)
          else if t.token = .mark .comma then do
            let others ← run (series inner .paren opened) after
            return (.tuple (first.1 :: others.1) opened, others.2)
          else .error (expecting "',' or ')'" (t :: after)) := by
  rw [run_eq_pair]
  unfold inParens
  split
  next heq => exact absurd heq (h _ _)
  refine pair_bind _ fun first => ?_
  -- The cases of the rule's own match, in its order: nothing left, the closing mark, a comma, and
  -- any other token.
  split
  next heq =>
    simp only [heq]
    rfl
  next heq =>
    simp only [heq, if_true]
    rfl
  next heq =>
    simp only [heq]
    exact pair_bind _ fun others => rfl
  next t after hparen hcomma heq =>
    simp only [heq]
    rw [if_neg fun ht => hparen _ (lexeme_eq ht), if_neg fun ht => hcomma _ (lexeme_eq ht)]
    rfl

/-- A name in front of a parenthesis is called. -/
theorem atom_call (inner : Option (Rule Expr)) (name : String) (p opened : Position)
    (ts : List Lexeme) :
    run (atom limit inner) (⟨.identifier name, p⟩ :: ⟨.mark .leftParen, opened⟩ :: ts) =
      oneDeeper limit inner opened >>= fun rule =>
        run (series rule .paren opened) ts >>= fun arguments =>
          .ok (.call name arguments.1 p, arguments.2) := by
  rw [run_eq_pair]
  unfold atom
  dsimp only
  cases oneDeeper limit inner opened with
  | error e => rfl
  | ok rule => exact pair_bind _ fun arguments => rfl

/-- Any other name stands for itself. -/
theorem atom_identifier (inner : Option (Rule Expr)) (name : String) (p : Position)
    {ts : List Lexeme} (h : ∀ t ∈ ts.head?, t.token ≠ .mark .leftParen) :
    run (atom limit inner) (⟨.identifier name, p⟩ :: ts) = .ok (.identifier name p, ts) := by
  rw [run_eq_pair, atom]
  · rfl
  · exact ne_mark_cons h

/-- A parenthesis that calls nothing. -/
theorem atom_paren (inner : Option (Rule Expr)) (opened : Position) (ts : List Lexeme) :
    run (atom limit inner) (⟨.mark .leftParen, opened⟩ :: ts) =
      oneDeeper limit inner opened >>= fun rule => run (inParens rule opened) ts := by
  rw [run_eq_pair]
  unfold atom
  dsimp only
  cases oneDeeper limit inner opened with
  | error e => rfl
  | ok rule => exact pair_widen _ _

/-- A list between brackets. -/
theorem atom_bracket (inner : Option (Rule Expr)) (opened : Position) (ts : List Lexeme) :
    run (atom limit inner) (⟨.mark .leftBracket, opened⟩ :: ts) =
      oneDeeper limit inner opened >>= fun rule =>
        run (series rule .bracket opened) ts >>= fun elements =>
          .ok (.tuple elements.1 opened, elements.2) := by
  rw [run_eq_pair]
  unfold atom
  dsimp only
  cases oneDeeper limit inner opened with
  | error e => rfl
  | ok rule => exact pair_bind _ fun elements => rfl

/-- A parenthesis is read if the first expression in it and what comes after that are. -/
theorem Within.parens {rule : Rule Expr} (hrule : Reads limit room Expression Follow rule)
    {opened : Position} {ns p ns' after : List Lexeme} {t : Lexeme} {k m : Nat} {e : Expr}
    {result : Expr × List Lexeme} (hns : Newlines ns) (hexpr : Expression k p e)
    (hns' : Newlines ns') (ht : t.token = .mark .rightParen ∨ t.token = .mark .comma)
    (hnext : Within limit m room
      (if t.token = .mark .rightParen then .ok (e, after)
        else if t.token = .mark .comma then do
          let others ← run (series rule .paren opened) after
          return (.tuple (e :: others.1) opened, others.2)
        else .error (expecting "',' or ')'" (t :: after))) result) :
    Within limit (max k m) room
      (run (inParens rule opened) (ns ++ (p ++ (ns' ++ t :: after)))) result := by
  obtain ⟨u, q, rfl, hnewline, hclosing⟩ := expression_opens hexpr
  have hends : EndsItem t.token := by
    rcases ht with h | h
    · exact .inr (.inr ⟨.paren, h⟩)
    · exact .inr (.inl h)
  have hread := hrule hexpr (follow_separable.newlines hns' hends (u :: q) after)
  have hdrop := dropNewlines_append hns hnewline (q ++ (ns' ++ t :: after))
  have ht' : t.token ≠ .newline := by
    rcases ht with h | h <;> rw [h] <;> exact nofun
  -- The newlines on both sides of the expression go, and what comes next is the mark `t`.
  simp only [List.cons_append] at hread ⊢
  rw [inParens_run, hdrop]
  · refine hread.bind ?_
    rw [dropNewlines_append hns' ht']
    exact hnext
  · intro c rest h
    rw [hdrop] at h
    cases h
    exact hclosing .paren rfl

/-- Atoms are read if expressions with less room are. -/
theorem atom_reads
    (hinner : ∀ r, room = r + 1 → Reads limit r Expression Follow (parse limit r)) :
    Reads limit room (Atom Expression) (Free []) (atom limit (nested limit room)) := by
  rw [nested_eq]
  intro k p e rest hatom hfree
  cases hatom with
  -- Atoms without delimiters take no levels and need no room.
  | number => exact Within.ok _
  | range => exact Within.ok _
  | text => exact Within.ok _
  | tile => exact Within.ok _
  | identifier =>
    -- No parenthesis may come after the name, or it would be called.
    rw [List.singleton_append, atom_identifier _ _ _ fun t ht => (hfree t ht).2 ⟨_, rfl⟩]
    exact Within.ok _
  | call hseries =>
    rw [List.cons_append, List.cons_append, atom_call]
    refine Within.deeper _ fun r hr => ?_
    exact (series_reads (hinner r hr) expression_opens follow_separable _ _ hseries trivial).map rfl
  | bracket hseries =>
    rw [List.cons_append, atom_bracket]
    refine Within.deeper _ fun r hr => ?_
    exact (series_reads (hinner r hr) expression_opens follow_separable _ _ hseries trivial).map rfl
  | paren hgroup =>
    cases hgroup with
    | @unit ns opened c hns =>
      have hdrop := dropNewlines_append hns (t := ⟨.mark .rightParen, c⟩) nofun rest
      rw [List.cons_append, atom_paren, List.append_assoc, List.singleton_append]
      refine Within.deeper _ fun r hr => ?_
      rw [inParens_closed _ _ hdrop]
      exact Within.ok _
    | @parens _ _ _ _ _ k _ hns hexpr hns' =>
      rw [List.cons_append, atom_paren]
      refine Within.deeper _ fun r hr => ?_
      simp only [List.append_assoc, List.singleton_append]
      -- What follows the expression is only the mark that closes, and takes no levels.
      rw [← Nat.max_zero k]
      exact Within.parens (hinner r hr) hns hexpr hns' (.inl rfl) (Within.ok _)
    | tuple hns hexpr hns' hseries =>
      rw [List.cons_append, atom_paren]
      refine Within.deeper _ fun r hr => ?_
      simp only [List.append_assoc, List.cons_append]
      exact Within.parens (hinner r hr) hns hexpr hns' (.inr rfl)
        ((series_reads (hinner r hr) expression_opens follow_separable _ _ hseries trivial).map rfl)

/-- What is read after an opening parenthesis makes a group with it. -/
theorem group_sound {rule : Rule Expr} (hrule : Sound room Expression Follow rule)
    {opened : Position} {ts rest : List Lexeme} {e : Expr}
    (h : run (inParens rule opened) ts = .ok (e, rest)) :
    ∃ k p, k ≤ room + 1 ∧ ⟨.mark .leftParen, opened⟩ :: ts = p ++ rest ∧
      Group Expression k p e := by
  obtain ⟨ns, hns, hts⟩ := exists_newlines ts
  rcases mark_or_not .rightParen (dropNewlines ts) with ⟨c, after, hdrop⟩ | hopen
  -- Nothing stands in the parentheses.
  · rw [inParens_closed _ _ hdrop] at h
    cases h
    rw [hdrop] at hts
    exact ⟨1, _, Nat.succ_le_succ (Nat.zero_le _), by simpa using hts, .unit (c := c) hns⟩
  rw [inParens_run _ _ (ne_mark_cons hopen)] at h
  obtain ⟨⟨first, left⟩, hfirst, h⟩ := bind_eq_ok.mp h
  obtain ⟨k, p, hk, hp, hspelled, -⟩ := hrule hfirst
  obtain ⟨ns', hns', hleft⟩ := exists_newlines left
  -- The text is now `ns`, the first expression `p`, `ns'`, and the mark that comes next.
  rw [hp] at hts
  dsimp only at h
  split at h
  · cases h
  next t after hdrop =>
  rw [hleft, hdrop] at hts
  split at h
  -- The expression alone is in parentheses, and the group is the expression.
  next hparen =>
    cases h
    rw [lexeme_eq hparen] at hts
    have hgroup : Group Expression (k + 1) (⟨.mark .leftParen, opened⟩ ::
        (ns ++ (p ++ (ns' ++ [⟨.mark .rightParen, t.position⟩])))) e :=
      .parens hns hspelled hns'
    refine ⟨k + 1, _, Nat.succ_le_succ hk, ?_, hgroup⟩
    simpa using hts
  split at h
  -- A comma makes a tuple of it and of the series up to the closing mark.
  next hcomma =>
    obtain ⟨⟨others, left'⟩, hothers, h⟩ := bind_eq_ok.mp h
    cases h
    obtain ⟨m, ps, hm, hps, hseries, -⟩ := series_sound hrule _ _ hothers
    rw [lexeme_eq hcomma, hps] at hts
    exact ⟨max k m + 1, _, by omega, by simpa using hts,
      .tuple (c := t.position) hns hspelled hns' hseries⟩
  · cases h

/-- The rule for atoms reads nothing but atoms if the rules for expressions with less room read
nothing but expressions. -/
theorem atom_sound
    (hinner : ∀ r, room = r + 1 → Sound r Expression Follow (parse limit r)) :
    Sound room (Atom Expression) (Free []) (atom limit (nested limit room)) := by
  rw [nested_eq]
  intro ts e rest h
  -- The first token decides which atom it is; all other tokens are faults.
  rcases ts with _ | ⟨⟨token, p⟩, ts⟩
  · cases h
  cases token with
  | integer value =>
    cases h
    exact ⟨0, _, Nat.zero_le _, rfl, .number, free_of_not_endsInName (by simp [EndsInName]) _⟩
  | range first last =>
    cases h
    exact ⟨0, _, Nat.zero_le _, rfl, .range, free_of_not_endsInName (by simp [EndsInName]) _⟩
  | text value =>
    cases h
    exact ⟨0, _, Nat.zero_le _, rfl, .text, free_of_not_endsInName (by simp [EndsInName]) _⟩
  | tile code =>
    cases h
    exact ⟨0, _, Nat.zero_le _, rfl, .tile, free_of_not_endsInName (by simp [EndsInName]) _⟩
  | identifier name =>
    rcases mark_or_not .leftParen ts with ⟨opened, ts, rfl⟩ | hhead
    -- A call. Its arguments take a level and end with the closing mark, so that what is read does
    -- not end with the name.
    · rw [atom_call, deeper_eq_ok] at h
      obtain ⟨r, rfl, h⟩ := h
      obtain ⟨⟨arguments, left⟩, hseries, h⟩ := bind_eq_ok.mp h
      cases h
      obtain ⟨k, ps, hk, rfl, hspelled, -⟩ := series_sound (hinner r rfl) _ _ hseries
      have hends : ¬ EndsInName (⟨.identifier name, p⟩ :: ⟨.mark .leftParen, opened⟩ :: ps) := by
        simpa [series_ne_nil hspelled] using series_not_endsInName hspelled
      exact ⟨k + 1, _, Nat.succ_le_succ hk, rfl, .call hspelled, free_of_not_endsInName hends _⟩
    · rw [atom_identifier _ _ _ hhead] at h
      cases h
      exact ⟨0, _, Nat.zero_le _, rfl, .identifier, fun t ht => ⟨nofun, fun _ => hhead t ht⟩⟩
  | mark m =>
    cases m with
    | leftParen =>
      rw [atom_paren, deeper_eq_ok] at h
      obtain ⟨r, rfl, h⟩ := h
      obtain ⟨k, q, hk, hq, hgroup⟩ := group_sound (hinner r rfl) h
      exact ⟨k, q, hk, hq, .paren hgroup, free_of_not_endsInName (group_not_endsInName hgroup) _⟩
    | leftBracket =>
      rw [atom_bracket, deeper_eq_ok] at h
      obtain ⟨r, rfl, h⟩ := h
      obtain ⟨⟨elements, left⟩, hseries, h⟩ := bind_eq_ok.mp h
      cases h
      obtain ⟨k, ps, hk, rfl, hspelled, -⟩ := series_sound (hinner r rfl) _ _ hseries
      have hends : ¬ EndsInName (⟨.mark .leftBracket, p⟩ :: ps) := by
        simpa [series_ne_nil hspelled] using series_not_endsInName hspelled
      exact ⟨k + 1, _, Nat.succ_le_succ hk, rfl, .bracket hspelled, free_of_not_endsInName hends _⟩
    | _ => cases h
  | _ => cases h

end Expr

end HandTemplate
