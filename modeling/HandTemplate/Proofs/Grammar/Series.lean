import HandTemplate.Proofs.Grammar.Within

/-!
# Reading series

A series rule reads exactly the series of what its item rule reads, whatever the items are.
-/

namespace HandTemplate

namespace Rule

open Grammar Outcome

variable {α : Type} {limit room : Nat}

/-- Line ends in front of another token are dropped. -/
theorem dropNewlines_append {ns : List Lexeme} (hns : Newlines ns) {t : Lexeme}
    (ht : t.token ≠ .newline) (ts : List Lexeme) : dropNewlines (ns ++ t :: ts) = t :: ts := by
  unfold dropNewlines
  rw [List.dropWhile_append_of_pos (fun t ht => by simpa using hns t ht)]
  exact List.dropWhile_cons_of_neg (by simpa using ht)

/-- Lexemes are line ends in front of those that stay when line ends are dropped. -/
theorem exists_newlines (ts : List Lexeme) : ∃ ns, Newlines ns ∧ ts = ns ++ dropNewlines ts := by
  refine ⟨ts.takeWhile (·.token = .newline), fun t ht => ?_, List.takeWhile_append_dropWhile.symm⟩
  simpa using List.all_eq_true.mp List.all_takeWhile t ht

/-- A closing mark is no line end. -/
theorem closing_ne_newline (d : Delimiter) : Token.mark d.closing ≠ .newline := nofun

/-- A closing mark is no comma. -/
theorem closing_ne_comma (d : Delimiter) : Token.mark d.closing ≠ .mark .comma := by
  cases d <;> decide

/-- A series in terms of what its items give as pairs. -/
theorem series_run (item : Rule α) (d : Delimiter) (opened : Position) (ts : List Lexeme) :
    run (series item d opened) ts =
      match dropNewlines ts with
      | [] => .error (.unclosed d opened)
      | t :: after =>
        if t.token = .mark d.closing then .ok ([], after)
        else (do
          let first ← item.run (t :: after)
          match dropNewlines first.2 with
          | [] => .error (.unclosed d opened)
          | u :: after' =>
            if u.token = .mark .comma then do
              let others ← run (series item d opened) after'
              return (first.1 :: others.1, others.2)
            else if u.token = .mark d.closing then return ([first.1], after')
            else
              .error (.unexpected ("',' or " ++ (Token.mark d.closing).words)
                u.token u.position)) := by
  rw [run_eq_pair]
  unfold series
  -- The outer match looks at the first lexeme that is no newline, the inner one at what follows the
  -- item.
  split
  next heq =>
    simp only [heq]
    rfl
  next t after heq =>
    simp only [heq]
    split
    · rfl
    refine pair_bind _ fun first => ?_
    split
    next heq =>
      simp only [heq]
      rfl
    next u after' heq =>
      simp only [heq]
      split
      · exact pair_bind _ fun others => rfl
      split <;> rfl

/-- A series is read if its items are. -/
theorem series_reads {item : Spelling α} {free : List Lexeme → List Lexeme → Prop}
    {rule : Rule α} (hitem : Reads limit room item free rule) (hopens : Opens item)
    (hfree : Separable free) (d : Delimiter) (opened : Position) :
    Reads limit room (Series item d) (fun _ _ => True) (series rule d opened) := by
  intro k p as rest hseries _
  -- By induction on the series; what follows an item inside it never continues the item.
  induction hseries with
  | done hns =>
    rw [series_run, List.append_assoc, List.singleton_append,
      dropNewlines_append hns (closing_ne_newline d)]
    simp only [if_true]
    exact Within.ok _
  | @last ns p ns' c k a hns hp hns' =>
    -- The item begins with `t`, so that the rule neither skips it nor takes it for the end.
    obtain ⟨t, q, rfl, hnewline, hclosing⟩ := hopens hp
    have hread := hitem hp
      (hfree.newlines hns' (t := ⟨.mark d.closing, c⟩) (.inr (.inr ⟨d, rfl⟩)) (t :: q) rest)
    rw [series_run]
    simp only [List.append_assoc, List.cons_append, List.nil_append] at hread ⊢
    rw [dropNewlines_append hns hnewline]
    simp only [if_neg (hclosing d)]
    refine hread.map ?_
    rw [dropNewlines_append hns' (closing_ne_newline d)]
    simp only [if_neg (closing_ne_comma d), if_true]
    rfl
  | @more ns p ns' ps c k m a as hns hp hns' _ ih =>
    -- After the item a comma follows, and the induction hypothesis reads the series behind it.
    obtain ⟨t, q, rfl, hnewline, hclosing⟩ := hopens hp
    have hread := hitem hp
      (hfree.newlines hns' (t := ⟨.mark .comma, c⟩) (.inr (.inl rfl)) (t :: q) (ps ++ rest))
    rw [series_run]
    simp only [List.append_assoc, List.cons_append] at hread ⊢
    rw [dropNewlines_append hns hnewline]
    simp only [if_neg (hclosing d)]
    refine hread.bind ?_
    rw [dropNewlines_append hns' (t := ⟨.mark .comma, c⟩) nofun]
    exact ih.map rfl

/-- A series rule reads nothing but series of what its item rule reads. -/
theorem series_sound {item : Spelling α} {free : List Lexeme → List Lexeme → Prop}
    {rule : Rule α} (hitem : Sound room item free rule) (d : Delimiter) (opened : Position) :
    Sound room (Series item d) (fun _ _ => True) (series rule d opened) := by
  intro ts as rest h
  -- By induction on the number of lexemes, of which the item and the comma take some.
  induction hlength : ts.length using Nat.strongRecOn generalizing ts as rest with
  | ind n ih =>
  subst hlength
  rw [series_run] at h
  obtain ⟨ns, hns, hts⟩ := exists_newlines ts
  split at h
  · cases h
  next t after heq =>
  rw [heq] at hts
  split at h
  next hclosing =>
    cases h
    rw [lexeme_eq hclosing] at hts
    exact ⟨0, _, Nat.zero_le _, by simpa using hts, .done hns, trivial⟩
  -- There is a first item `p`, and after it the series goes on with a comma or ends.
  obtain ⟨⟨a, left⟩, hfirst, h⟩ := bind_eq_ok.mp h
  obtain ⟨k, p, hk, hp, hspelled, -⟩ := hitem hfirst
  obtain ⟨ns', hns', hleft⟩ := exists_newlines left
  dsimp only at h
  split at h
  · cases h
  next u after' heq' =>
  rw [heq'] at hleft
  rw [hp, hleft] at hts
  split at h
  next hcomma =>
    obtain ⟨⟨others, left'⟩, hothers, h⟩ := bind_eq_ok.mp h
    cases h
    -- The series after the comma is shorter, and the induction applies to it.
    have hshorter : after'.length < ts.length := by
      rw [hts]
      simp only [List.length_append, List.length_cons]
      omega
    obtain ⟨m, ps, hm, hps, hseries, -⟩ := ih _ hshorter hothers rfl
    rw [lexeme_eq hcomma, hps] at hts
    exact ⟨max k m, _, by omega, by simpa using hts, .more hns hspelled hns' hseries, trivial⟩
  split at h
  next hclosing =>
    cases h
    rw [lexeme_eq hclosing] at hts
    exact ⟨k, _, hk, by simpa using hts, .last hns hspelled hns', trivial⟩
  · cases h

end Rule

end HandTemplate
