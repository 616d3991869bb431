import HandTemplate.Proofs.Faults.Expression
import HandTemplate.Proofs.Layout.Statement

/-!
# Faults of statements

The rules for statements agree under two limits, as those for expressions do.
-/

namespace HandTemplate

namespace Statement

open Grammar Rule

variable {limit limit' room room' : Nat} {W : List Lexeme}

/-- Every part of a statement is placed where a lexeme stands, and a name where it is written. -/
inductive Placed (W : List Lexeme) : Statement → Prop where
  | assign {target : Binding} {value : Expr} {p : Position} (hp : p.Among W)
      (hvalue : value.Placed W) : Placed W (.assign target value p)
  | foreach {binding : Binding} {source : Expr} {body : List Statement} {p : Position}
      (hp : p.Among W) (hsource : source.Placed W) (hbody : ∀ s ∈ body, Placed W s) :
      Placed W (.foreach binding source body p)
  | call {name : String} {arguments : List Expr} {p : Position} (hp : ⟨.identifier name, p⟩ ∈ W)
      (harguments : ∀ e ∈ arguments, e.Placed W) : Placed W (.call name arguments p)

/-- A statement stands where one of the lexemes does. -/
theorem Placed.position {s : Statement} (h : s.Placed W) : s.position.Among W := by
  cases h with
  | assign hp | foreach hp => exact hp
  | call hp => exact ⟨_, hp⟩

/-! ## Names -/

/-- A name is read alike under both limits. -/
theorem name_agrees (W : List Lexeme) : Agrees W (fun _ => True) Rule.name Rule.name := by
  intro ts hts
  rcases ts with _ | ⟨⟨token, p⟩, ts⟩
  · exact .error trivial
  obtain ⟨ht, hafter⟩ := mem_and_subset_of_cons hts
  cases token with
  | identifier name => exact .ok trivial hafter
  | _ => exact .error ht

/-- No names begin with another token. -/
theorem nameList_error {ts : List Lexeme}
    (h : ∀ name p after, ts ≠ ⟨.identifier name, p⟩ :: after) :
    run nameList ts = .error (expecting "identifier" ts) := by
  have hname : Rule.name ts = .error (expecting "identifier" ts) := by
    unfold Rule.name
    split
    · exact absurd rfl (h _ _ _)
    · rfl
  rw [run_eq_pair]
  unfold nameList
  rw [hname]
  rfl

/-- Names with commas between them are read alike under both limits. -/
theorem nameList_agrees (W : List Lexeme) : Agrees W (fun _ => True) nameList nameList := by
  intro ts hts
  -- By induction on the number of lexemes, two for each name with its comma.
  obtain ⟨n, hlength⟩ : ∃ n, ts.length = n := ⟨_, rfl⟩
  induction n using Nat.strongRecOn generalizing ts with
  | ind n ih =>
  subst hlength
  by_cases hname : ∃ name p after, ts = ⟨.identifier name, p⟩ :: after
  · obtain ⟨name, p, after, rfl⟩ := hname
    obtain ⟨-, hafter⟩ := mem_and_subset_of_cons hts
    rcases mark_or_not .comma after with ⟨q, after, rfl⟩ | hhead
    · rw [nameList_more]
      have hothers := ih _ (by simp only [List.length_cons]; omega) after
        (mem_and_subset_of_cons hafter).2 rfl
      exact hothers.bind fun others rest _ _ hrest => .ok trivial hrest
    · rw [nameList_one _ _ hhead]
      exact .ok trivial hafter
  · rw [nameList_error fun name p after heq => hname ⟨name, p, after, heq⟩]
    exact .error (GrammarFault.names_expecting _ hts)

/-! ## Headers of loops -/

/-- Bindings of loops agree; a parenthesis that they leave open is a lexeme. -/
theorem loopHead_agrees (W : List Lexeme) :
    Agrees W (fun head => ∀ opened ∈ head.2, ⟨.mark .leftParen, opened⟩ ∈ W) loopHead loopHead := by
  intro ts hts
  -- There are two parentheses, one, or none.
  rcases mark_or_not .leftParen ts with ⟨opened, ts, rfl⟩ | hhead
  · obtain ⟨hopened, hafter⟩ := mem_and_subset_of_cons hts
    have hkept : ∀ p ∈ some opened, (⟨.mark .leftParen, p⟩ : Lexeme) ∈ W := by
      rintro p ⟨⟩
      exact hopened
    rcases mark_or_not .leftParen ts with ⟨inner, ts, rfl⟩ | hhead
    · obtain ⟨hinner, hafter⟩ := mem_and_subset_of_cons hafter
      rw [loopHead_twice]
      exact (series_agrees (name_agrees W) (d := .paren) hinner ts hafter).bind
        fun names rest _ _ hrest => .ok hkept hrest
    · rw [loopHead_paren _ hhead]
      refine (nameList_agrees W ts hafter).bind fun names rest _ _ hrest => ?_
      -- A single name leaves the parenthesis open; several names have to be closed.
      dsimp only
      split
      · exact .ok hkept hrest
      split
      · exact .error hopened
      next t after =>
        obtain ⟨ht, hafter⟩ := mem_and_subset_of_cons hrest
        split
        · exact .ok (fun p hp => (nomatch hp)) hafter
        · exact .error ht
  · rw [loopHead_bare hhead]
    refine (nameList_agrees W ts hts).bind fun names rest _ _ hrest => ?_
    dsimp only
    split <;> exact .ok (fun p hp => (nomatch hp)) hrest

/-- What a loop ranges over is introduced alike under both limits. -/
theorem within_agrees {ts : List Lexeme} (hts : ts ⊆ W) :
    Agree W (fun _ => True) (pair (within ts)) (pair (within ts)) := by
  rcases ts with _ | ⟨⟨token, p⟩, ts⟩
  · exact .error trivial
  obtain ⟨ht, hafter⟩ := mem_and_subset_of_cons hts
  cases token with
  | keyword word =>
    cases word with
    | within => exact .ok trivial hafter
    | _ => exact .error ht
  | _ => exact .error ht

/-- The end of a loop's header is read alike under both limits. -/
theorem headerEnd_agrees {opened : Option Position}
    (hopened : ∀ p ∈ opened, ⟨.mark .leftParen, p⟩ ∈ W) {ts : List Lexeme} (hts : ts ⊆ W) :
    Agree W (fun _ => True) (pair (headerEnd opened ts)) (pair (headerEnd opened ts)) := by
  cases opened with
  | none => exact .ok trivial hts
  | some opened =>
  rcases mark_or_not .rightParen ts with ⟨c, after, rfl⟩ | hhead
  · exact .ok trivial (mem_and_subset_of_cons hts).2
  · cases ts with
    | nil => exact .error (hopened opened rfl)
    | cons t after =>
      rw [headerEnd]
      · exact .error (mem_and_subset_of_cons hts).1
      · rintro c after' ⟨⟩
        exact hhead _ rfl rfl
      · simp

/-! ## Bodies -/

section
variable {statement statement' : Rule Statement}
  (hstatement : Agrees W (Placed W) statement statement')
include hstatement

/-- A statement and those after it agree if both do. -/
theorem readOne_agrees
    {read read' : List Lexeme → Except GrammarFault (List Statement × List Lexeme)}
    {ts : List Lexeme} (hts : ts ⊆ W)
    (hread : ∀ rest, rest.length < ts.length → rest ⊆ W →
      Agree W (fun statements => ∀ s ∈ statements, s.Placed W) (read rest) (read' rest)) :
    Agree W (fun statements => ∀ s ∈ statements, s.Placed W) (readOne statement read ts)
      (readOne statement' read' ts) :=
  (hstatement ts hts).bind fun _ rest hrun hfirst hrest =>
    (hread rest (length_lt_of_run hrun) hrest).bind fun _ _ _ hothers hrest' =>
      .ok (List.forall_mem_cons.2 ⟨hfirst, hothers⟩) hrest'

/-- Bodies in braces agree if statements do. -/
theorem bracedStatements_agrees {opened : Position} (hopened : ⟨.mark .leftBrace, opened⟩ ∈ W) :
    Agrees W (fun statements => ∀ s ∈ statements, s.Placed W) (bracedStatements statement opened)
      (bracedStatements statement' opened) := by
  intro ts hts
  -- By induction on the number of lexemes, which every statement makes smaller.
  obtain ⟨n, hlength⟩ : ∃ n, ts.length = n := ⟨_, rfl⟩
  induction n using Nat.strongRecOn generalizing ts with
  | ind n ih =>
  subst hlength
  rw [bracedStatements_run, bracedStatements_run]
  have hdrop := dropSeparators_subset hts
  have hshorter := length_dropSeparators_le ts
  cases heq : dropSeparators ts with
  | nil => exact .error hopened
  | cons t after =>
  rw [heq] at hdrop hshorter
  dsimp only
  split
  · exact .ok (fun s hs => (nomatch hs)) (mem_and_subset_of_cons hdrop).2
  · exact readOne_agrees hstatement hdrop fun rest hrest hsubset =>
      ih _ (by omega) rest hsubset rfl

/-- Bodies after a colon agree if statements do. -/
theorem openStatements_agree {ts : List Lexeme} (hts : ts ⊆ W) :
    Agree W (fun statements => ∀ s ∈ statements, s.Placed W) (pair (openStatements statement ts))
      (pair (openStatements statement' ts)) := by
  -- By induction on the number of lexemes, which every statement makes smaller.
  obtain ⟨n, hlength⟩ : ∃ n, ts.length = n := ⟨_, rfl⟩
  induction n using Nat.strongRecOn generalizing ts with
  | ind n ih =>
  subst hlength
  rw [openStatements_run, openStatements_run]
  have hdrop := dropSeparators_subset hts
  have hshorter := length_dropSeparators_le ts
  cases heq : dropSeparators ts with
  | nil => exact .ok (fun s hs => (nomatch hs)) (List.nil_subset _)
  | cons t after =>
  rw [heq] at hdrop hshorter
  obtain ⟨-, hafter⟩ := mem_and_subset_of_cons hdrop
  -- The body ends with the word and perhaps a colon, or where the enclosing brace does.
  dsimp only
  split
  · split
    · exact .ok (fun s hs => (nomatch hs)) (mem_and_subset_of_cons hafter).2
    · exact .ok (fun s hs => (nomatch hs)) hafter
  split
  · exact .ok (fun s hs => (nomatch hs)) hdrop
  · exact readOne_agrees hstatement hdrop fun rest hrest hsubset =>
      ih _ (by omega) hsubset rfl

/-- Bodies agree if statements do. -/
theorem body_agrees (expected : String) :
    Agrees W (fun statements => ∀ s ∈ statements, s.Placed W) (body statement expected)
      (body statement' expected) := by
  intro ts hts
  have hdrop := dropNewlines_subset hts
  -- There is a brace at once, a brace after a colon, or a colon alone.
  rcases mark_or_not .leftBrace (dropNewlines ts) with ⟨opened, after, heq⟩ | hbrace
  · rw [body_braces _ _ heq, body_braces _ _ heq]
    rw [heq] at hdrop
    obtain ⟨hopened, hafter⟩ := mem_and_subset_of_cons hdrop
    exact bracedStatements_agrees hstatement hopened after hafter
  rcases mark_or_not .colon ts with ⟨p, ts, rfl⟩ | hcolon
  · obtain ⟨-, hafter⟩ := mem_and_subset_of_cons hts
    have hdrop := dropNewlines_subset hafter
    rcases mark_or_not .leftBrace (dropNewlines ts) with ⟨opened, after, heq⟩ | hbrace
    · rw [body_colonBraces _ _ _ heq, body_colonBraces _ _ _ heq]
      rw [heq] at hdrop
      obtain ⟨hopened, hafter⟩ := mem_and_subset_of_cons hdrop
      exact bracedStatements_agrees hstatement hopened after hafter
    · rw [body_colon _ _ _ (ne_mark_cons hbrace), body_colon _ _ _ (ne_mark_cons hbrace)]
      exact openStatements_agree hstatement hafter
  · have hnone := ne_mark_cons hbrace
    rw [body_error _ _ hnone hcolon, body_error _ _ hnone hcolon]
    exact .error (GrammarFault.names_expecting _ hts)

end

/-! ## Statements -/

/-- No assignment goes on with another token. -/
theorem assigned_error (expression : Rule Expr) (target : Binding) (p : Position)
    {ts : List Lexeme} (h : ∀ t ∈ ts.head?, t.token ≠ .mark .equals) :
    run (assigned expression target p) ts = .error (expecting "'='" ts) := by
  rw [run_eq_pair, assigned]
  · rfl
  · exact ne_mark_cons h

section
variable {expression expression' : Rule Expr}
  (hexpression : Agrees W (Expr.Placed W) expression expression')
include hexpression

/-- Assignments agree if expressions do. -/
theorem assigned_agrees {target : Binding} {p : Position} (hp : p.Among W) :
    Agrees W (Placed W) (assigned expression target p) (assigned expression' target p) := by
  intro ts hts
  rcases mark_or_not .equals ts with ⟨q, after, rfl⟩ | hhead
  · rw [assigned_run, assigned_run]
    exact (hexpression after (mem_and_subset_of_cons hts).2).bind fun value rest _ hvalue hrest =>
      .ok (.assign hp hvalue) hrest
  · rw [assigned_error _ _ _ hhead, assigned_error _ _ _ hhead]
    exact .error (GrammarFault.names_expecting _ hts)

/-- Loops agree if their sources and bodies do. -/
theorem loop_agrees {statement statement' : Rule Statement}
    (hstatement : Agrees W (Placed W) statement statement') {p : Position} (hp : p.Among W) :
    Agrees W (Placed W) (loop expression statement p) (loop expression' statement' p) := by
  intro ts hts
  rw [loop_run, loop_run]
  refine (loopHead_agrees W ts hts).bind fun head rest _ hhead hrest => ?_
  refine (within_agrees hrest).bind fun _ rest _ _ hrest => ?_
  refine (hexpression rest hrest).bind fun source rest _ hsource hrest => ?_
  refine (headerEnd_agrees hhead hrest).bind fun _ rest _ _ hrest => ?_
  refine (body_agrees hstatement _ rest hrest).bind fun statements rest _ hstatements hrest => ?_
  exact .ok (.foreach hp hsource hstatements) hrest

end

/-- Statements agree, if the second run has no less room than the first. -/
theorem parse_agrees (limit limit' : Nat) (hroom : room ≤ room') :
    Agrees W (Placed W) (parse limit room) (parse limit' room') := by
  induction room using Nat.strongRecOn generalizing room' with
  | ind room ih =>
  intro ts hts
  have hexpression : Agrees W (Expr.Placed W) (Expr.parse limit room) (Expr.parse limit' room') :=
    Expr.parse_agrees limit limit' hroom
  rw [parse_eq, parse_eq]
  -- The first token decides what the statement is, and after a name the second one.
  rcases ts with _ | ⟨⟨token, p⟩, ts⟩
  · exact .error trivial
  obtain ⟨ht, hafter⟩ := mem_and_subset_of_cons hts
  have hp : p.Among W := ⟨_, ht⟩
  cases token with
  | keyword word =>
    cases word with
    | foreach =>
      rw [form_foreach, form_foreach]
      exact Agree.deeper ht hroom fun n n' hn hn' hle =>
        loop_agrees hexpression (ih n (by omega) hle) hp ts hafter
    | _ => exact .error ht
  | mark m =>
    cases m with
    | leftParen =>
      rw [form_parens, form_parens]
      exact (series_agrees (name_agrees W) (d := .paren) ht ts hafter).bind
        fun names rest _ _ hrest => assigned_agrees hexpression hp rest hrest
    | _ => exact .error ht
  | identifier name =>
    rcases ts with _ | ⟨⟨token, q⟩, ts⟩
    · exact .error trivial
    obtain ⟨hq, hafter'⟩ := mem_and_subset_of_cons hafter
    cases token with
    | mark m =>
      cases m with
      | equals =>
        rw [form_name, form_name]
        exact assigned_agrees hexpression hp _ hafter
      | comma =>
        rw [form_bare, form_bare]
        exact (nameList_agrees W _ hts).bind fun names rest _ _ hrest =>
          assigned_agrees hexpression hp rest hrest
      | leftParen =>
        rw [form_call, form_call]
        refine Agree.deeper hq hroom fun n n' _ _ hle => ?_
        have harguments := series_agrees (Expr.parse_agrees limit limit' hle) (d := .paren) hq ts
          hafter'
        exact harguments.bind fun arguments rest _ harguments hrest =>
          .ok (.call ht harguments) hrest
      | _ => exact .error hq
    | _ => exact .error hq
  | _ => exact .error ht

end Statement

end HandTemplate
