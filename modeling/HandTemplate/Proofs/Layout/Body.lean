import HandTemplate.Proofs.Grammar.Series
import HandTemplate.Proofs.Layout.Spelling
import HandTemplate.Statement.Parser

/-!
# Reading bodies

Both kinds of bodies are read statement by statement, and differ in what ends them only.
-/

namespace HandTemplate

namespace Rule

open Grammar

variable {α : Type}

/-- A rule reads, with some room, the constructs of a way of writing. -/
def ReadsWriting (limit room : Nat) (writing : Writing α) (rule : Rule α) : Prop :=
  ∀ {k p rest a}, writing k p rest a → Within limit k room (rule.run (p ++ rest)) (a, rest)

/-- A rule reads, with some room, nothing but constructs of a way of writing. -/
def SoundWriting (room : Nat) (writing : Writing α) (rule : Rule α) : Prop :=
  ∀ {ts a rest}, rule.run ts = .ok (a, rest) →
    ∃ k p, k ≤ room ∧ ts = p ++ rest ∧ writing k p rest a

/-- Separators in front of another token are dropped. -/
theorem dropSeparators_append {ss : List Lexeme} (hss : Separators ss) {ts : List Lexeme}
    (hts : ∀ t ∈ ts.head?, isSeparator t.token = false) : dropSeparators (ss ++ ts) = ts := by
  unfold dropSeparators
  rw [List.dropWhile_append_of_pos (fun t ht => by simpa [isSeparator] using hss t ht)]
  cases ts with
  | nil => rfl
  | cons t ts => exact List.dropWhile_cons_of_neg (by simpa using hts t rfl)

/-- Lexemes are separators in front of those that stay when separators are dropped. -/
theorem exists_separators (ts : List Lexeme) :
    ∃ ss, Separators ss ∧ ts = ss ++ dropSeparators ts := by
  refine ⟨ts.takeWhile (isSeparator ·.token), fun t ht => ?_, List.takeWhile_append_dropWhile.symm⟩
  simpa [isSeparator] using List.all_eq_true.mp List.all_takeWhile t ht

end Rule

namespace Statement

open Grammar Outcome Rule

variable {limit room : Nat} {statement : Rule Statement}

/-- A statement does not begin with a separator. -/
theorem BeginsStatement.not_separator {token : Token} (h : BeginsStatement token) :
    isSeparator token = false := by
  rcases h with rfl | rfl | ⟨name, rfl⟩ <;> rfl

/-- What is read of statements with one that stands at the front. -/
def readOne (statement : Rule Statement)
    (read : List Lexeme → Except GrammarFault (List Statement × List Lexeme)) (ts : List Lexeme) :
    Except GrammarFault (List Statement × List Lexeme) := do
  let first ← statement.run ts
  let others ← read first.2
  return (first.1 :: others.1, others.2)

/-- Statements are read one by one up to an ending. -/
structure UpTo (ending : List Lexeme → List Lexeme → Prop) (statement : Rule Statement)
    (read : List Lexeme → Except GrammarFault (List Statement × List Lexeme)) : Prop where
  /-- After separators, the ending is read. -/
  done : ∀ {ss es rest}, Separators ss → ending es rest → read (ss ++ (es ++ rest)) = .ok ([], rest)
  /-- After separators, a statement is read and then all that follows it. -/
  more : ∀ {ss t ts}, Separators ss → BeginsStatement t.token →
    read (ss ++ t :: ts) = readOne statement read (t :: ts)
  /-- Nothing else is read. -/
  sound : ∀ {ts statements rest}, read ts = .ok (statements, rest) →
    ∃ ss, Separators ss ∧
      ((∃ es, ts = ss ++ (es ++ rest) ∧ ending es rest ∧ statements = []) ∨
        ∃ t after, ts = ss ++ t :: after ∧
          readOne statement read (t :: after) = .ok (statements, rest))

/-- Statements are read if each of them is. -/
theorem UpTo.reads {ending : List Lexeme → List Lexeme → Prop}
    {read : List Lexeme → Except GrammarFault (List Statement × List Lexeme)}
    (h : UpTo ending statement read) (hstatement : ReadsWriting limit room Written statement)
    {k : Nat} {ps rest : List Lexeme} {statements : List Statement}
    (hspelled : Statements Written ending k ps rest statements) :
    Within limit k room (read (ps ++ rest)) (statements, rest) := by
  induction hspelled with
  | done hss hending =>
    rw [List.append_assoc, h.done hss hending]
    exact Within.ok _
  | @more ss p ps rest k m s statements hss hfirst _ ih =>
    obtain ⟨t, q, rfl, ht⟩ := written_opens hfirst
    have hread := hstatement hfirst
    rw [List.append_assoc, List.append_assoc, List.cons_append, h.more hss ht]
    exact hread.bind (ih.map rfl)

/-- Nothing but statements is read if each statement rule reads nothing else. -/
theorem UpTo.sound_statements {ending : List Lexeme → List Lexeme → Prop}
    {read : List Lexeme → Except GrammarFault (List Statement × List Lexeme)}
    (h : UpTo ending statement read) (hstatement : SoundWriting room Written statement)
    {ts rest : List Lexeme} {statements : List Statement}
    (hread : read ts = .ok (statements, rest)) :
    ∃ k ps, k ≤ room ∧ ts = ps ++ rest ∧ Statements Written ending k ps rest statements := by
  -- By induction on the number of lexemes, of which a statement takes some.
  induction hlength : ts.length using Nat.strongRecOn generalizing ts statements with
  | ind n ih =>
  subst hlength
  obtain ⟨ss, hss, ⟨es, rfl, hending, rfl⟩ | ⟨t, after, rfl, hone⟩⟩ := h.sound hread
  · exact ⟨0, _, Nat.zero_le _, (List.append_assoc _ _ _).symm, .done hss hending⟩
  · -- A statement stands first, and what is left after it is shorter: no statement is written
    -- with no lexemes.
    obtain ⟨⟨first, left⟩, hfirst, hone⟩ := bind_eq_ok.mp hone
    obtain ⟨⟨others, left'⟩, hothers, hone⟩ := bind_eq_ok.mp hone
    cases hone
    obtain ⟨k, p, hk, hp, hwritten⟩ := hstatement hfirst
    have hshorter : left.length < (ss ++ t :: after).length := by
      obtain ⟨u, q, rfl, -⟩ := written_opens hwritten
      rw [hp]
      simp only [List.length_append, List.length_cons]
      omega
    obtain ⟨m, ps, hm, rfl, hstatements⟩ := ih _ hshorter hothers rfl
    rw [hp]
    exact ⟨max k m, _, by omega, by simp, .more hss hwritten hstatements⟩

/-- A body in braces in terms of what its statements give as pairs. -/
theorem bracedStatements_run (statement : Rule Statement) (opened : Position) (ts : List Lexeme) :
    run (bracedStatements statement opened) ts =
      match dropSeparators ts with
      | [] => .error (.unclosed .brace opened)
      | t :: after =>
        if t.token = .mark .rightBrace then .ok ([], after)
        else readOne statement (run (bracedStatements statement opened)) (t :: after) := by
  rw [run_eq_pair]
  unfold bracedStatements
  split
  next heq =>
    simp only [heq]
    rfl
  next t after heq =>
    simp only [heq]
    split
    · rfl
    · exact pair_bind _ fun first => pair_bind _ fun others => rfl

/-- A body after a colon in terms of what its statements give as pairs. -/
theorem openStatements_run (statement : Rule Statement) (ts : List Lexeme) :
    pair (openStatements statement ts) =
      match dropSeparators ts with
      | [] => .ok ([], [])
      | t :: after =>
        if t.token = .keyword .ending then
          match after with
          | ⟨.mark .colon, _⟩ :: after => .ok ([], after)
          | after => .ok ([], after)
        else if t.token = .mark .rightBrace then .ok ([], t :: after)
        else readOne statement (fun ts => pair (openStatements statement ts)) (t :: after) := by
  conv => lhs; unfold openStatements
  split
  next heq =>
    simp only [heq]
    rfl
  next t after heq =>
    simp only [heq]
    split
    · -- After the word, a colon belongs to it, and anything else does not.
      split
      · rfl
      next hcolon =>
        split
        · exact absurd HEq.rfl (hcolon _ _ _ _ rfl HEq.rfl)
        · rfl
    split
    · rfl
    · exact pair_bind _ fun first => pair_bind _ fun others => rfl

/-- The rule for statements in braces reads them up to the closing brace. -/
theorem upTo_braced (statement : Rule Statement) (opened : Position) :
    UpTo Braced statement (run (bracedStatements statement opened)) where
  done := by
    -- After the separators only the brace can come, since no statement is left.
    rintro ss es rest hss ⟨⟩
    rw [bracedStatements_run, dropSeparators_append hss (by rintro t ⟨⟩; rfl)]
    simp
  more := by
    -- What begins a statement is neither a separator nor the brace.
    intro ss t ts hss ht
    rw [bracedStatements_run, dropSeparators_append hss
      (by rintro t ⟨⟩; exact BeginsStatement.not_separator ht)]
    refine if_neg ?_
    rcases ht with h | h | ⟨name, h⟩ <;> rw [h] <;> exact nofun
  sound := by
    -- What is left without separators decides: nothing, the brace or a statement.
    intro ts statements rest h
    obtain ⟨ss, hss, hts⟩ := exists_separators ts
    rw [bracedStatements_run] at h
    split at h
    · cases h
    next t after heq =>
    rw [heq] at hts
    split at h
    next hclosed =>
      cases h
      rw [lexeme_eq hclosed] at hts
      exact ⟨ss, hss, .inl ⟨[_], hts, .brace, rfl⟩⟩
    · exact ⟨ss, hss, .inr ⟨t, after, hts, h⟩⟩

/-- The rule for statements after a colon reads them up to the word that ends them, or to what
encloses them. -/
theorem upTo_open (statement : Rule Statement) :
    UpTo Ended statement fun ts => pair (openStatements statement ts) where
  done := by
    intro ss es rest hss hending
    rw [openStatements_run]
    cases hending with
    | word hrest =>
      rw [dropSeparators_append hss (by rintro t ⟨⟩; rfl)]
      simp only [List.singleton_append, if_true]
      split
      · exact absurd rfl (hrest _ rfl)
      · rfl
    | colon =>
      rw [dropSeparators_append hss (by rintro t ⟨⟩; rfl)]
      rfl
    | left hrest =>
      -- Nothing is taken, neither at the end of the text nor in front of the enclosing brace.
      rw [List.nil_append, dropSeparators_append hss (fun t ht => by rw [hrest t ht]; rfl)]
      cases rest with
      | nil => rfl
      | cons t rest =>
        have ht := hrest t rfl
        simp only [ht, if_true]
        rfl
  more := by
    intro ss t ts hss ht
    -- No statement begins with the word or the brace that end the body.
    have hnot : t.token ≠ .keyword .ending ∧ t.token ≠ .mark .rightBrace := by
      rcases ht with h | h | ⟨name, h⟩ <;> rw [h] <;> exact ⟨nofun, nofun⟩
    rw [openStatements_run, dropSeparators_append hss
      (by rintro t ⟨⟩; exact BeginsStatement.not_separator ht)]
    simp only [if_neg hnot.1, if_neg hnot.2]
  sound := by
    intro ts statements rest h
    obtain ⟨ss, hss, hts⟩ := exists_separators ts
    rw [openStatements_run] at h
    -- The end of the text, the word with or without a colon, a brace, or a statement.
    split at h
    next heq =>
      cases h
      rw [heq] at hts
      exact ⟨ss, hss, .inl ⟨[], hts, .left nofun, rfl⟩⟩
    next t after heq =>
    rw [heq] at hts
    split at h
    next hword =>
      rw [lexeme_eq hword] at hts
      rcases mark_or_not .colon after with ⟨p, after, rfl⟩ | hhead
      · cases h
        exact ⟨ss, hss, .inl ⟨[_, _], hts, .colon, rfl⟩⟩
      · split at h
        · exact absurd rfl (hhead _ rfl)
        · cases h
          exact ⟨ss, hss, .inl ⟨[_], hts, .word hhead, rfl⟩⟩
    split at h
    next hbrace =>
      cases h
      exact ⟨ss, hss, .inl ⟨[], hts, .left (by rintro u ⟨⟩; exact hbrace), rfl⟩⟩
    · exact ⟨ss, hss, .inr ⟨t, after, hts, h⟩⟩

/-! ## Bodies -/

/-- A body may be in braces. -/
theorem body_braces (statement : Rule Statement) (expected : String) {ts after : List Lexeme}
    {opened : Position} (h : dropNewlines ts = ⟨.mark .leftBrace, opened⟩ :: after) :
    run (body statement expected) ts = run (bracedStatements statement opened) after := by
  rw [run_eq_pair]
  unfold body
  split
  next heq =>
    rw [h] at heq
    cases heq
    exact pair_widen _ _
  next heq => exact absurd h (heq _ _)

/-- A body may be in braces after a colon. -/
theorem body_colonBraces (statement : Rule Statement) (expected : String) (p : Position)
    {ts after : List Lexeme} {opened : Position}
    (h : dropNewlines ts = ⟨.mark .leftBrace, opened⟩ :: after) :
    run (body statement expected) (⟨.mark .colon, p⟩ :: ts) =
      run (bracedStatements statement opened) after := by
  rw [run_eq_pair]
  unfold body
  split
  next heq => cases heq
  dsimp only
  split
  next heq =>
    rw [h] at heq
    cases heq
    exact pair_widen _ _
  next heq => exact absurd h (heq _ _)

/-- A body may be open after a colon. -/
theorem body_colon (statement : Rule Statement) (expected : String) (p : Position)
    {ts : List Lexeme} (h : ∀ opened after, dropNewlines ts ≠ ⟨.mark .leftBrace, opened⟩ :: after) :
    run (body statement expected) (⟨.mark .colon, p⟩ :: ts) =
      pair (openStatements statement ts) := by
  rw [run_eq_pair]
  unfold body
  split
  next heq => cases heq
  dsimp only
  split
  next heq => exact absurd heq (h _ _)
  · rfl

/-- Without a brace or a colon there is no body. -/
theorem body_error (statement : Rule Statement) (expected : String) {ts : List Lexeme}
    (hbrace : ∀ opened after, dropNewlines ts ≠ ⟨.mark .leftBrace, opened⟩ :: after)
    (hcolon : ∀ t ∈ ts.head?, t.token ≠ .mark .colon) :
    run (body statement expected) ts = .error (expecting expected ts) := by
  rw [run_eq_pair]
  unfold body
  split
  next heq => exact absurd heq (hbrace _ _)
  split
  · exact absurd rfl (hcolon _ rfl)
  · rfl

/-- What stands after a colon, the separators aside, is no brace that opens. -/
theorem ended_head {k : Nat} {ps rest : List Lexeme} {statements : List Statement}
    (h : Statements Written Ended k ps rest statements) :
    ∀ t ∈ (dropSeparators (ps ++ rest)).head?, t.token ≠ .mark .leftBrace := by
  cases h with
  | done hss hending =>
    rw [List.append_assoc]
    -- Whatever ends the body is no separator, and so it is what comes next.
    cases hending with
    | word =>
      rw [List.singleton_append, dropSeparators_append hss (by rintro t ⟨⟩; rfl)]
      rintro t ⟨⟩
      exact nofun
    | colon =>
      rw [List.cons_append, dropSeparators_append hss (by rintro t ⟨⟩; rfl)]
      rintro t ⟨⟩
      exact nofun
    | left hrest =>
      rw [List.nil_append, dropSeparators_append hss (fun t ht => by rw [hrest t ht]; rfl)]
      intro t ht
      rw [hrest t ht]
      exact nofun
  | more hss hfirst _ =>
    -- What begins a statement is no separator either.
    obtain ⟨t, q, rfl, ht⟩ := written_opens hfirst
    rw [List.append_assoc, List.append_assoc, List.cons_append,
      dropSeparators_append hss (by rintro t ⟨⟩; exact BeginsStatement.not_separator ht)]
    rintro t ⟨⟩
    rcases ht with h | h | ⟨name, h⟩ <;> rw [h] <;> exact nofun

/-- No body after a colon begins with a brace. -/
theorem ended_not_brace {k : Nat} {ps rest : List Lexeme} {statements : List Statement}
    (h : Statements Written Ended k ps rest statements) (opened : Position) (after : List Lexeme) :
    dropNewlines (ps ++ rest) ≠ ⟨.mark .leftBrace, opened⟩ :: after := by
  intro hdrop
  -- A brace after line ends only would also be the first lexeme after all separators.
  obtain ⟨ns, hns, hts⟩ := exists_newlines (ps ++ rest)
  have hhead := ended_head h
  rw [hts, hdrop,
    dropSeparators_append (fun t ht => .inl (hns t ht)) (by rintro t ⟨⟩; rfl)] at hhead
  exact hhead _ rfl rfl

/-- Bodies are read if statements are. -/
theorem body_reads {statement : Rule Statement}
    (hstatement : ReadsWriting limit room Written statement) (expected : String) :
    ReadsWriting limit room (Body Written) (body statement expected) := by
  intro k p rest statements h
  cases h with
  | @braces ns ps _ p _ _ hns hstatements =>
    have hdrop := dropNewlines_append hns (t := ⟨.mark .leftBrace, p⟩) nofun (ps ++ rest)
    rw [List.append_assoc, List.cons_append, body_braces _ _ hdrop]
    exact (upTo_braced _ _).reads hstatement hstatements
  | @colonBraces ns ps _ p q _ _ hns hstatements =>
    have hdrop := dropNewlines_append hns (t := ⟨.mark .leftBrace, q⟩) nofun (ps ++ rest)
    rw [List.cons_append, List.append_assoc, List.cons_append, body_colonBraces _ _ _ hdrop]
    exact (upTo_braced _ _).reads hstatement hstatements
  | colon hstatements =>
    rw [List.cons_append, body_colon _ _ _ (ended_not_brace hstatements)]
    exact (upTo_open _).reads hstatement hstatements

/-- Nothing but bodies is read if nothing but statements is. -/
theorem body_sound {statement : Rule Statement} (hstatement : SoundWriting room Written statement)
    (expected : String) : SoundWriting room (Body Written) (body statement expected) := by
  intro ts statements rest h
  obtain ⟨ns, hns, hts⟩ := exists_newlines ts
  -- There is a brace at once, a brace after a colon, or a colon alone.
  rcases mark_or_not .leftBrace (dropNewlines ts) with ⟨opened, after, hdrop⟩ | hbrace
  · rw [body_braces _ _ hdrop] at h
    obtain ⟨k, ps, hk, rfl, hstatements⟩ := (upTo_braced _ _).sound_statements hstatement h
    rw [hdrop] at hts
    exact ⟨k, _, hk, by simpa using hts, .braces hns hstatements⟩
  rcases mark_or_not .colon ts with ⟨p, ts, rfl⟩ | hcolon
  · obtain ⟨ns, hns, hts⟩ := exists_newlines ts
    rcases mark_or_not .leftBrace (dropNewlines ts) with ⟨opened, after, hdrop⟩ | hbrace
    · rw [body_colonBraces _ _ _ hdrop] at h
      obtain ⟨k, ps, hk, rfl, hstatements⟩ := (upTo_braced _ _).sound_statements hstatement h
      rw [hdrop] at hts
      rw [hts]
      exact ⟨k, _, hk, by simp, .colonBraces (p := p) (q := opened) hns hstatements⟩
    · rw [body_colon _ _ _ (ne_mark_cons hbrace)] at h
      obtain ⟨k, ps, hk, rfl, hstatements⟩ := (upTo_open _).sound_statements hstatement h
      exact ⟨k, _, hk, rfl, .colon hstatements⟩
  · rw [body_error _ _ (ne_mark_cons hbrace) hcolon] at h
    cases h

end Statement

end HandTemplate
