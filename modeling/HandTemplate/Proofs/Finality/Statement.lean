import HandTemplate.Proofs.Faults.Statement
import HandTemplate.Proofs.Finality.Expression

/-!
# Statements and what follows them

A statement that is read in front of some lexemes is read in front of more, and a fault in it at a
token other than a line end stays. At the end of the lexemes more of them may go on with names, with
the block of a loop after its header, or with a body that is open there.
-/

namespace HandTemplate

namespace Statement

open Grammar Rule

variable {W more : List Lexeme}

/-! ## Names -/

/-- A name is decided by its lexeme. -/
theorem name_continues : Continuing W more Rule.name := by
  intro ts hts
  rcases ts with _ | ⟨⟨token, p⟩, ts⟩
  · exact .of_nil (.error (.endOfText _))
  cases token with
  | identifier name => exact .of_head nofun (.ok (suffix_of_cons hts))
  | newline => exact ⟨.error _, fun hnewlines => .error (atEnd_of_newlines hts hnewlines rfl)⟩
  | _ => exact .of_head nofun (.error _)

/-- Names with commas between them are decided by the lexemes up to the one after them. -/
theorem nameList_continues : Continuing W more nameList := by
  intro ts hts
  -- By induction on the number of lexemes, two for each name with its comma.
  induction hlength : ts.length using Nat.strongRecOn generalizing ts with
  | ind n ih =>
  subst hlength
  rcases ts with _ | ⟨⟨token, p⟩, ts⟩
  · have hfault : run nameList [] = .error (expecting "identifier" []) := nameList_error nofun
    exact .of_nil (hfault ▸ .error (.endOfText _))
  by_cases hname : ∃ name, token = .identifier name
  · obtain ⟨name, rfl⟩ := hname
    have hafter := suffix_of_cons hts
    have hnames : Continues W more (fun us => run nameList (⟨.identifier name, p⟩ :: us)) ts := by
      refine .optional hafter (fun us => nameList_one name p) ?_
      rintro q after rfl
      rw [List.cons_append, nameList_more, nameList_more]
      exact (ih _ (by simp only [List.length_cons]; omega) _ (suffix_of_cons hafter)
        rfl).prolonged.bind fun others rest _ hrest => Continues.ok (name :: others) hrest
    exact .of_head nofun hnames.prolonged
  · have hfault : ∀ us : List Lexeme, run nameList (⟨token, p⟩ :: us) =
        .error (expecting "identifier" (⟨token, p⟩ :: us)) := by
      refine fun us => nameList_error ?_
      rintro name q after ⟨⟩
      exact hname ⟨name, rfl⟩
    exact (Continues.expecting "identifier" hts).congr (hfault ts) (hfault (ts ++ more))

/-! ## Headers of loops -/

/-- A binding is undecided where there are only line ends. -/
theorem loopHead_undecided {ts : List Lexeme} (hts : ts <:+ W) (hnewlines : Newlines ts) :
    Undecided W (run loopHead ts) := by
  have hhead : ∀ t ∈ ts.head?, t.token ≠ .mark .leftParen := by
    intro t ht
    rw [hnewlines t (List.mem_of_mem_head? ht)]
    exact nofun
  have hnames : Continues W [] (run nameList) ts := nameList_continues ts hts
  rw [loopHead_bare hhead]
  refine (hnames.undecided hnewlines).bind fun names rest _ hrest hsuffix => ?_
  dsimp only
  split <;> exact .ok hrest hsuffix

/-- The head of a loop is decided by the lexemes up to its end. -/
theorem loopHead_continues : Continuing W more loopHead := by
  intro ts hts
  refine ⟨?_, loopHead_undecided hts⟩
  rcases ts with _ | ⟨t, ts⟩
  · exact .undecided (loopHead_undecided hts newlines_nil) _
  by_cases hparen : t.token = .mark .leftParen
  -- Of two parentheses the inner one holds names; one parenthesis may hold names or the whole
  -- header.
  · obtain ⟨_, opened⟩ := t
    cases hparen
    have hafter := suffix_of_cons hts
    rcases ts with _ | ⟨u, ts⟩
    · -- Whether the binding has a parenthesis of its own depends on what follows.
      have hnames : Continues W more (run nameList) [] := nameList_continues [] hafter
      rw [loopHead_paren _ (by simp)]
      exact .undecided ((hnames.undecided newlines_nil).bind
        fun names rest hrun _ _ => absurd (length_lt_of_run hrun) (Nat.not_lt_zero _)) _
    by_cases hinner : u.token = .mark .leftParen
    · obtain ⟨_, inner⟩ := u
      cases hinner
      rw [List.cons_append, List.cons_append, loopHead_twice, loopHead_twice]
      exact (series_continues name_continues _ _ _ (suffix_of_cons hafter)).prolonged.bind
        fun names rest _ hrest => Continues.ok (Binding.tuple names, some opened) hrest
    · have hhead : ∀ us, ∀ t ∈ (u :: us).head?, t.token ≠ .mark .leftParen := by
        rintro us t ⟨⟩
        exact hinner
      rw [List.cons_append, List.cons_append, loopHead_paren _ (hhead _),
        loopHead_paren _ (hhead _)]
      -- Several names are followed by the parenthesis that closes, which may still come.
      refine (nameList_continues _ hafter).prolonged.bind fun names rest _ hrest => ?_
      dsimp only
      split
      · exact .ok _ hrest
      rcases rest with _ | ⟨v, rest⟩
      · exact .of_nil (.error (.unclosed .paren opened))
      refine ⟨?_, fun hnewlines => ?_⟩
      · dsimp only [List.cons_append]
        split
        · exact .ok (suffix_of_cons hrest)
        · exact .error _
      · have hv : v.token ≠ .mark .rightParen := by
          rw [hnewlines v (List.mem_cons_self ..)]
          exact nofun
        dsimp only
        rw [if_neg hv]
        exact .error (atEnd_of_newlines hrest hnewlines rfl)
  -- Without a parenthesis, the names are all there is.
  · have hhead : ∀ us, ∀ u ∈ (t :: us).head?, u.token ≠ .mark .leftParen := by
      rintro us u ⟨⟩
      exact hparen
    rw [List.cons_append, loopHead_bare (hhead _), loopHead_bare (hhead _)]
    refine (nameList_continues _ hts).prolonged.bind fun names rest _ hrest => ?_
    dsimp only
    split <;> exact .ok _ hrest

/-- What introduces the values of a loop is decided by its lexeme. -/
theorem within_continues {ts : List Lexeme} (hts : ts <:+ W) :
    Continues W more (fun us => pair (within us)) ts := by
  rcases ts with _ | ⟨⟨token, p⟩, ts⟩
  · exact .of_nil (.error (.endOfText _))
  cases token with
  | keyword word =>
    cases word with
    | within => exact .of_head nofun (.ok (suffix_of_cons hts))
    | _ => exact .of_head nofun (.error _)
  | newline => exact ⟨.error _, fun hnewlines => .error (atEnd_of_newlines hts hnewlines rfl)⟩
  | _ => exact .of_head nofun (.error _)

/-- The end of a loop's header is decided by its lexemes. -/
theorem headerEnd_continues (opened : Option Position) {ts : List Lexeme} (hts : ts <:+ W) :
    Continues W more (fun us => pair (headerEnd opened us)) ts := by
  cases opened with
  | none => exact .ok () hts
  | some opened =>
  -- The closing parenthesis is the next lexeme, or a fault.
  rcases ts with _ | ⟨t, ts⟩
  · exact .of_nil (.error (.unclosed .paren opened))
  by_cases ht : t.token = .mark .rightParen
  · obtain ⟨_, c⟩ := t
    cases ht
    exact .of_head nofun (.ok (suffix_of_cons hts))
  · have hfault : ∀ us, pair (headerEnd (some opened) (t :: us)) =
        .error (expecting "')' closing the foreach header" (t :: us)) := by
      intro us
      rw [headerEnd]
      · rfl
      · rintro c after ⟨⟩
        exact ht rfl
      · simp
    exact (Continues.expecting _ hts).congr (hfault ts) (hfault (ts ++ more))

/-! ## Bodies -/

section
variable {statement : Rule Statement} (hstatement : Continuing W more statement)
include hstatement

/-- Bodies in braces are decided if statements are. -/
theorem bracedStatements_continues (opened : Position) :
    Continuing W more (bracedStatements statement opened) := fun _ hts =>
  repetition_continues (fun t ht => by simp [isSeparator, ht])
    (bracedStatements_run statement opened) hstatement hts

/-- Bodies after a colon are decided if statements are; at the end of the lexemes they are open. -/
theorem openStatements_continues {ts : List Lexeme} (hts : ts <:+ W) :
    Continues W more (fun us => pair (openStatements statement us)) ts := by
  -- By induction on the number of lexemes, which every statement makes smaller.
  induction hlength : ts.length using Nat.strongRecOn generalizing ts with
  | ind n ih =>
  subst hlength
  refine .dropSeparators hts (fun heq => ?_) fun t after heq heq' hafter => ?_
  · rw [openStatements_run, heq]
    exact .ok newlines_nil List.nil_suffix
  have hshorter := length_dropSeparators_le ts
  rw [heq] at hshorter
  rw [openStatements_run, openStatements_run, heq, heq']
  dsimp only
  split
  · -- A colon may follow the word that ends the body.
    have hsuffix := suffix_of_cons hafter
    rcases after with _ | ⟨u, after⟩
    · exact .undecided (.ok newlines_nil List.nil_suffix) _
    by_cases hu : u.token = .mark .colon
    · obtain ⟨_, c⟩ := u
      cases hu
      exact .ok (suffix_of_cons hsuffix)
    · have hopen : ∀ (c : Position) (us vs : List Lexeme), u :: us ≠ ⟨.mark .colon, c⟩ :: vs := by
        rintro c us vs ⟨⟩
        exact hu rfl
      split
      next heq => exact absurd heq (hopen _ _ _)
      rw [List.cons_append]
      split
      next heq => exact absurd heq (hopen _ _ _)
      exact .ok hsuffix
  split
  · exact .ok hafter
  · refine (hstatement _ hafter).prolonged.bind fun first rest hrun hrest => ?_
    have hfirstShorter := length_lt_of_run hrun
    dsimp only
    exact (ih _ (by omega) hrest rfl).bind fun others rest' _ hrest' =>
      Continues.ok (first :: others) hrest'

/-- Bodies after a colon are decided if statements are, whether or not there are braces. -/
theorem body_colon_continues (expected : String) (p : Position) {ts : List Lexeme}
    (hts : ts <:+ W) :
    Continues W more (fun us => run (body statement expected) (⟨.mark .colon, p⟩ :: us)) ts := by
  refine .dropNewlines hts (fun heq => ?_) fun t after heq heq' hafter => ?_
  · have hopen : Continues W more (fun us => pair (openStatements statement us)) ts :=
      openStatements_continues hstatement hts
    rw [body_colon _ _ _ (heq ▸ nofun)]
    exact hopen.undecided (newlines_of_dropNewlines heq)
  by_cases ht : t.token = .mark .leftBrace
  · obtain ⟨_, opened⟩ := t
    cases ht
    rw [body_colonBraces _ _ _ heq, body_colonBraces _ _ _ heq']
    exact (bracedStatements_continues hstatement opened _ (suffix_of_cons hafter)).prolonged
  · rw [body_colon _ _ _ (heq ▸ fun _ _ h => ht (by cases h; rfl)),
      body_colon _ _ _ (heq' ▸ fun _ _ h => ht (by cases h; rfl))]
    exact (openStatements_continues hstatement hts).prolonged

/-- Bodies are decided if statements are. -/
theorem body_continues (expected : String) : Continuing W more (body statement expected) := by
  intro ts hts
  refine .dropNewlines hts (fun heq => ?_) fun t after heq heq' hafter => ?_
  -- Up to line ends, a brace or a colon may still come.
  · have hnewlines := newlines_of_dropNewlines heq
    rw [body_error _ _ (heq ▸ nofun) fun t ht => ?_]
    · have hfault : Continues W more
          (fun us => .error (α := List Statement × List Lexeme) (expecting expected us)) ts :=
        Continues.expecting expected hts
      exact hfault.undecided hnewlines
    · rw [hnewlines t (List.mem_of_mem_head? ht)]
      exact nofun
  by_cases ht : t.token = .mark .leftBrace
  · obtain ⟨_, opened⟩ := t
    cases ht
    rw [body_braces _ _ heq, body_braces _ _ heq']
    exact (bracedStatements_continues hstatement opened _ (suffix_of_cons hafter)).prolonged
  -- A first lexeme that is no brace is a colon or a fault.
  rcases ts with _ | ⟨u, ts⟩
  · cases heq
  by_cases hu : u.token = .mark .colon
  · obtain ⟨_, p⟩ := u
    cases hu
    exact (body_colon_continues hstatement expected p (suffix_of_cons hts)).prolonged
  · have hnone : ∀ us : List Lexeme, ∀ opened after',
        t :: us ≠ ⟨.mark .leftBrace, opened⟩ :: after' := by
      rintro us opened after' ⟨⟩
      exact ht rfl
    have hcolon : ∀ us, ∀ v ∈ (u :: us).head?, v.token ≠ .mark .colon := by
      rintro us v ⟨⟩
      exact hu
    rw [body_error _ _ (heq ▸ hnone _) (hcolon ts), List.cons_append,
      body_error _ _ (heq' ▸ hnone _) (hcolon _)]
    exact .error _

end

/-! ## Statements -/

section
variable {expression : Rule Expr} (hexpression : Continuing W more expression)
include hexpression

/-- Assignments are decided if expressions are. -/
theorem assigned_continues (target : Binding) (p : Position) :
    Continuing W more (assigned expression target p) := by
  intro ts hts
  rcases ts with _ | ⟨t, ts⟩
  · have hfault : run (assigned expression target p) [] = .error (expecting "'='" []) :=
      assigned_error _ _ _ nofun
    exact .of_nil (hfault ▸ .error (.endOfText _))
  by_cases ht : t.token = .mark .equals
  · obtain ⟨_, q⟩ := t
    cases ht
    refine .of_head nofun ?_
    rw [assigned_run, assigned_run]
    exact (hexpression _ (suffix_of_cons hts)).prolonged.bind fun value rest _ hrest =>
      Continues.ok (Statement.assign target value p) hrest
  · have hhead : ∀ us, ∀ u ∈ (t :: us).head?, u.token ≠ .mark .equals := by
      rintro us u ⟨⟩
      exact ht
    exact (Continues.expecting _ hts).congr (assigned_error _ _ _ (hhead ts))
      (assigned_error _ _ _ (hhead (ts ++ more)))

/-- Loops are decided if their sources and the statements of their bodies are. -/
theorem loop_continues {statement : Rule Statement} (hstatement : Continuing W more statement)
    (p : Position) : Continuing W more (loop expression statement p) := by
  intro ts hts
  rw [funext (loop_run expression statement p)]
  refine (loopHead_continues ts hts).bind fun head rest _ hrest => ?_
  dsimp only
  refine (within_continues hrest).bind fun _ rest _ hrest => ?_
  dsimp only
  refine (hexpression rest hrest).bind fun source rest _ hrest => ?_
  dsimp only
  refine (headerEnd_continues head.2 hrest).bind fun _ rest _ hrest => ?_
  dsimp only
  refine (body_continues hstatement _ rest hrest).bind fun statements rest _ hrest => ?_
  exact .ok (Statement.foreach head.1 source statements p) hrest

end

/-- Statements are decided, unless they run up to line ends at the end of the lexemes. -/
theorem parse_continues (limit room : Nat) : Continuing W more (parse limit room) := by
  induction room using Nat.strongRecOn with
  | ind room ih =>
  intro ts hts
  have hexpression : Continuing W more (Expr.parse limit room) := Expr.parse_continues limit room
  rw [parse_eq]
  -- The first token decides what the statement is, and after a name the second one.
  rcases ts with _ | ⟨⟨token, p⟩, ts⟩
  · exact .of_nil (.error (.endOfText _))
  have hafter := suffix_of_cons hts
  cases token with
  | keyword word =>
    refine .of_head nofun ?_
    cases word with
    | foreach =>
      rw [form_foreach, form_foreach]
      exact .deeper fun n hn => (loop_continues hexpression (ih n hn) p ts hafter).prolonged
    | _ => exact .error _
  | mark m =>
    refine .of_head nofun ?_
    cases m with
    | leftParen =>
      rw [form_parens, form_parens]
      exact (series_continues name_continues .paren p ts hafter).prolonged.bind
        fun names rest _ hrest => assigned_continues hexpression (.tuple names) p rest hrest
    | _ => exact .error _
  | identifier name =>
    refine .of_head nofun ?_
    rcases ts with _ | ⟨⟨token, q⟩, ts⟩
    · exact .undecided (.error (.endOfText _)) _
    have hafter' := suffix_of_cons hafter
    cases token with
    | mark m =>
      cases m with
      | equals =>
        rw [List.cons_append, form_name, form_name]
        exact (assigned_continues hexpression (.name name) p _ hafter).prolonged
      | comma =>
        rw [List.cons_append, form_bare, form_bare]
        exact (nameList_continues _ hts).prolonged.bind fun names rest _ hrest =>
          assigned_continues hexpression (.tuple names) p rest hrest
      | leftParen =>
        rw [List.cons_append, form_call, form_call]
        exact .deeper fun n _ => (series_continues (Expr.parse_continues limit n) _ _ _
          hafter').prolonged.bind fun arguments rest _ hrest =>
            Continues.ok (Statement.call name arguments p) hrest
      | _ => exact .error _
    | _ => exact .error _
  | newline => exact ⟨.error _, fun hnewlines => .error (atEnd_of_newlines hts hnewlines rfl)⟩
  | _ => exact .of_head nofun (.error _)

end Statement

end HandTemplate
