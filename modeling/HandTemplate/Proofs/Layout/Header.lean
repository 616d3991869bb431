import HandTemplate.Proofs.Grammar.Expression
import HandTemplate.Proofs.Layout.Spelling
import HandTemplate.Statement.Parser

/-!
# Reading names and headers

The names of an assignment or a loop, with and without parentheses, and what stands between the
keyword of a loop and its body.
-/

namespace HandTemplate

namespace Statement

open Grammar Outcome Rule

variable {limit room : Nat}

/-! ## Names -/

/-- A name begins like an item. -/
theorem name_opens : Opens Name := by
  rintro k p a ⟨⟩
  exact ⟨_, _, rfl, nofun, fun d => by cases d <;> exact nofun⟩

/-- A name is read as it is. -/
theorem name_reads : Reads limit room Name (fun _ _ => True) Rule.name := by
  rintro k p a rest ⟨⟩ -
  exact Within.ok _

/-- The rule for a name reads one name. -/
theorem name_eq_ok {ts rest : List Lexeme} {name : String}
    (h : run Rule.name ts = .ok (name, rest)) :
    ∃ p, ts = ⟨.identifier name, p⟩ :: rest := by
  rcases ts with _ | ⟨⟨token, p⟩, ts⟩
  · cases h
  cases token with
  | identifier name =>
    cases h
    exact ⟨p, rfl⟩
  | _ => cases h

/-- Nothing but a name is read as one. -/
theorem name_sound : Sound room Name (fun _ _ => True) Rule.name := by
  intro ts name rest h
  obtain ⟨p, rfl⟩ := name_eq_ok h
  exact ⟨0, [_], Nat.zero_le _, rfl, .intro, trivial⟩

/-- Names take no levels. -/
theorem series_name_levels {d : Delimiter} {k : Nat} {ps : List Lexeme} {names : List String}
    (h : Series Name d k ps names) : k = 0 := by
  induction h with
  | done => rfl
  | last _ hname _ =>
    cases hname
    rfl
  | more _ hname _ _ ih =>
    cases hname
    rw [ih, Nat.max_zero]

/-- Names in parentheses are read. -/
theorem series_name_reads {k : Nat} {ps : List Lexeme} {names : List String} (opened : Position)
    (h : Series Name .paren k ps names) (rest : List Lexeme) :
    run (series Rule.name .paren opened) (ps ++ rest) = .ok (names, rest) := by
  have hread : Within 0 k 0 (run (series Rule.name .paren opened) (ps ++ rest)) (names, rest) :=
    series_reads name_reads name_opens (fun _ => trivial) .paren opened h trivial
  exact hread.1 (Nat.le_of_eq (series_name_levels h))

/-- Names in parentheses are all that is read as such. -/
theorem series_name_sound {opened : Position} {ts rest : List Lexeme} {names : List String}
    (h : run (series Rule.name .paren opened) ts = .ok (names, rest)) :
    ∃ k ps, ts = ps ++ rest ∧ Series Name .paren k ps names := by
  have hname : Sound 0 Name (fun _ _ => True) Rule.name := name_sound
  obtain ⟨k, ps, -, hps, hspelled, -⟩ := series_sound hname _ _ h
  exact ⟨k, ps, hps, hspelled⟩

/-- After a comma there are more names. -/
theorem nameList_more (name : String) (p q : Position) (ts : List Lexeme) :
    run nameList (⟨.identifier name, p⟩ :: ⟨.mark .comma, q⟩ :: ts) =
      run nameList ts >>= fun others => .ok (name :: others.1, others.2) := by
  rw [run_eq_pair]
  conv => lhs; unfold nameList
  exact pair_bind (r := nameList ts) (fun others => .ok (name :: others.1, others.2))
    fun others => rfl

/-- Without a comma there is one name. -/
theorem nameList_one (name : String) (p : Position) {ts : List Lexeme}
    (h : ∀ t ∈ ts.head?, t.token ≠ .mark .comma) :
    run nameList (⟨.identifier name, p⟩ :: ts) = .ok ([name], ts) := by
  rw [run_eq_pair]
  unfold nameList
  simp only [Rule.name, bind, Except.bind]
  split
  next => exact absurd rfl (h _ rfl)
  next => rfl

/-- Names with commas between them are read as far as commas go on. -/
theorem nameList_reads {ps rest : List Lexeme} {names : List String} (h : Names ps names)
    (hrest : ∀ t ∈ rest.head?, t.token ≠ .mark .comma) :
    run nameList (ps ++ rest) = .ok (names, rest) := by
  induction h with
  | one => exact nameList_one _ _ hrest
  | more _ ih =>
    rw [List.cons_append, List.cons_append, nameList_more, ih]
    rfl

/-- Nothing but names with commas between them is read as names. -/
theorem nameList_sound {ts rest : List Lexeme} {names : List String}
    (h : run nameList ts = .ok (names, rest)) : ∃ ps, ts = ps ++ rest ∧ Names ps names := by
  induction hlength : ts.length using Nat.strongRecOn generalizing ts names with
  | ind n ih =>
  subst hlength
  -- A name stands first in any case.
  have hname : ∃ name p after, ts = ⟨.identifier name, p⟩ :: after := by
    rw [run_eq_pair] at h
    unfold nameList at h
    cases hfirst : Rule.name ts with
    | error e =>
      rw [hfirst] at h
      cases h
    | ok first =>
      have hrun : run Rule.name ts = .ok (first.value, first.rest) := by
        rw [run_eq_pair, hfirst]
        rfl
      obtain ⟨p, hp⟩ := name_eq_ok hrun
      exact ⟨_, p, _, hp⟩
  obtain ⟨name, p, after, rfl⟩ := hname
  -- A comma after the name decides whether more names are read.
  rcases mark_or_not .comma after with ⟨q, ts, rfl⟩ | hhead
  · rw [nameList_more] at h
    obtain ⟨⟨others, left⟩, hothers, h⟩ := bind_eq_ok.mp h
    cases h
    obtain ⟨ps, rfl, hnames⟩ := ih _ (by simp only [List.length_cons]; omega) hothers rfl
    exact ⟨_, rfl, .more hnames⟩
  · rw [nameList_one _ _ hhead] at h
    cases h
    exact ⟨[_], rfl, .one⟩

/-! ## Bindings of loops -/

/-- After two parentheses, the inner one holds the names and the outer one the whole header. -/
theorem loopHead_twice (opened inner : Position) (ts : List Lexeme) :
    run loopHead (⟨.mark .leftParen, opened⟩ :: ⟨.mark .leftParen, inner⟩ :: ts) =
      run (series Rule.name .paren inner) ts >>= fun names =>
        .ok ((.tuple names.1, some opened), names.2) := by
  rw [run_eq_pair, loopHead]
  exact pair_bind _ fun names => rfl

/-- After one parenthesis, a single name leaves it open around the header, and several names are
closed by it. -/
theorem loopHead_paren (opened : Position) {ts : List Lexeme}
    (h : ∀ t ∈ ts.head?, t.token ≠ .mark .leftParen) :
    run loopHead (⟨.mark .leftParen, opened⟩ :: ts) =
      run nameList ts >>= fun names =>
        match names.1 with
        | [name] => .ok ((.name name, some opened), names.2)
        | several =>
          match names.2 with
          | [] => .error (.unclosed .paren opened)
          | t :: after =>
            if t.token = .mark .rightParen then .ok ((.tuple several, none), after)
            else .error (expecting "',' or ')'" (t :: after)) := by
  rw [run_eq_pair, loopHead]
  · refine pair_bind _ fun ⟨several, left, hleft⟩ => ?_
    -- A single name leaves the parenthesis open for the source, several names close it.
    rcases several with _ | ⟨name, _ | ⟨second, others⟩⟩
    case cons.nil => rfl
    all_goals
      dsimp only
      split
      next => rfl
      next => rfl
      next hparen =>
        dsimp only
        rw [if_neg fun ht => hparen _ (lexeme_eq ht)]
        rfl
  · rintro inner after rfl
    exact h _ rfl rfl

/-- Without a parenthesis, the names stand alone. -/
theorem loopHead_bare {ts : List Lexeme} (h : ∀ t ∈ ts.head?, t.token ≠ .mark .leftParen) :
    run loopHead ts =
      run nameList ts >>= fun names =>
        match names.1 with
        | [name] => .ok ((.name name, none), names.2)
        | several => .ok ((.tuple several, none), names.2) := by
  rw [run_eq_pair, loopHead]
  -- A single name or several: both stand as they are.
  · refine pair_bind _ fun ⟨several, left, hleft⟩ => ?_
    rcases several with _ | ⟨name, _ | ⟨second, others⟩⟩ <;> rfl
  · rintro opened inner after rfl
    exact h _ rfl rfl
  · exact ne_mark_cons h

/-- The binding of a loop is read in front of the word after it. -/
theorem loopHead_reads {hs : List Lexeme} {binding : Binding} {opened : Option Position}
    (h : Bound hs binding opened) (i : Position) (rest : List Lexeme) :
    run loopHead (hs ++ ⟨.keyword .within, i⟩ :: rest) =
      .ok ((binding, opened), ⟨.keyword .within, i⟩ :: rest) := by
  -- The word after the binding is no comma, so names without parentheses end there.
  have hcomma : ∀ t ∈ (⟨.keyword .within, i⟩ :: rest : List Lexeme).head?,
      t.token ≠ .mark .comma := by
    rintro t ⟨⟩
    exact nofun
  cases h with
  | name =>
    rw [List.singleton_append, loopHead_bare (by rintro t ⟨⟩; exact nofun),
      nameList_one _ _ hcomma]
    rfl
  | wrapped =>
    rw [List.cons_append, List.singleton_append, loopHead_paren _ (by rintro t ⟨⟩; exact nofun),
      nameList_one _ _ hcomma]
    rfl
  -- At least two names, one of which stands before the comma.
  | bare hnames =>
    rw [List.cons_append, List.cons_append, loopHead_bare (by rintro t ⟨⟩; exact nofun),
      nameList_more, nameList_reads hnames hcomma]
    obtain ⟨second, others, rfl⟩ := hnames.exists_cons
    rfl
  | @parens name _ p q c ps names hnames =>
    have hparen : ∀ t ∈ (⟨.mark .rightParen, c⟩ :: ⟨.keyword .within, i⟩ :: rest :
        List Lexeme).head?, t.token ≠ .mark .comma := by
      rintro t ⟨⟩
      exact nofun
    simp only [List.cons_append, List.append_assoc, List.nil_append]
    rw [loopHead_paren _ (by rintro t ⟨⟩; exact nofun), nameList_more,
      nameList_reads hnames hparen]
    obtain ⟨second, others, rfl⟩ := hnames.exists_cons
    rfl
  | twice hnames =>
    rw [List.cons_append, List.cons_append, loopHead_twice, series_name_reads _ hnames]
    rfl

/-- What is read as the binding of a loop spells it. -/
theorem loopHead_sound {ts rest : List Lexeme} {binding : Binding} {opened : Option Position}
    (h : run loopHead ts = .ok ((binding, opened), rest)) :
    ∃ hs, ts = hs ++ rest ∧ Bound hs binding opened := by
  -- The number of parentheses decides which forms there can be, and then the number of names.
  rcases mark_or_not .leftParen ts with ⟨p, ts, rfl⟩ | hhead
  -- Two parentheses open a series of names up to the inner closing mark.
  · rcases mark_or_not .leftParen ts with ⟨q, ts, rfl⟩ | hhead
    · rw [loopHead_twice] at h
      obtain ⟨⟨names, left⟩, hnames, h⟩ := bind_eq_ok.mp h
      cases h
      obtain ⟨k, ps, rfl, hspelled⟩ := series_name_sound hnames
      exact ⟨_, rfl, .twice hspelled⟩
    -- One parenthesis: a single name leaves it open for the source, and several names are closed by
    -- it.
    · rw [loopHead_paren _ hhead] at h
      obtain ⟨⟨names, left⟩, hnames, h⟩ := bind_eq_ok.mp h
      obtain ⟨ps, rfl, hspelled⟩ := nameList_sound hnames
      cases hspelled with
      | one =>
        cases h
        exact ⟨[_, _], rfl, .wrapped⟩
      | @more name q r ps names hspelled =>
        obtain ⟨second, others, rfl⟩ := hspelled.exists_cons
        cases left with
        | nil => cases h
        | cons t after =>
        dsimp only at h
        split at h
        next hparen =>
          cases h
          have hbound : Bound (⟨.mark .leftParen, p⟩ :: ⟨.identifier name, q⟩ ::
              ⟨.mark .comma, r⟩ :: (ps ++ [⟨.mark .rightParen, t.position⟩])) _ none :=
            .parens hspelled
          rw [← lexeme_eq hparen] at hbound
          exact ⟨_, by simp, hbound⟩
        · cases h
  -- No parenthesis at all.
  · rw [loopHead_bare hhead] at h
    obtain ⟨⟨names, left⟩, hnames, h⟩ := bind_eq_ok.mp h
    obtain ⟨ps, rfl, hspelled⟩ := nameList_sound hnames
    cases hspelled with
    | one =>
      cases h
      exact ⟨[_], rfl, .name⟩
    | more hspelled =>
      obtain ⟨second, others, rfl⟩ := hspelled.exists_cons
      cases h
      exact ⟨_, rfl, .bare hspelled⟩

/-! ## Headers of loops -/

/-- Nothing but the word is read in front of what a loop ranges over. -/
theorem within_sound {ts rest : List Lexeme} {u : Unit} (h : pair (within ts) = .ok (u, rest)) :
    ∃ i, ts = ⟨.keyword .within, i⟩ :: rest := by
  rcases ts with _ | ⟨⟨token, p⟩, ts⟩
  · cases h
  cases token with
  | keyword word =>
    cases word with
    | within =>
      cases h
      exact ⟨p, rfl⟩
    | _ => cases h
  | _ => cases h

/-- A header without a parenthesis has no end of its own. -/
theorem headerEnd_none_sound {ts rest : List Lexeme} {u : Unit}
    (h : pair (headerEnd none ts) = .ok (u, rest)) : ts = rest := by
  cases h
  rfl

/-- A header in parentheses ends with the closing one. -/
theorem headerEnd_some_sound {opened : Position} {ts rest : List Lexeme} {u : Unit}
    (h : pair (headerEnd (some opened) ts) = .ok (u, rest)) :
    ∃ c, ts = ⟨.mark .rightParen, c⟩ :: rest := by
  rcases mark_or_not .rightParen ts with ⟨c, after, rfl⟩ | hhead
  · cases h
    exact ⟨c, rfl⟩
  · cases ts with
    | nil => cases h
    | cons t after =>
      rw [headerEnd] at h
      · cases h
      · rintro c after' ⟨⟩
        exact hhead _ rfl rfl
      · exact nofun

end Statement

end HandTemplate
