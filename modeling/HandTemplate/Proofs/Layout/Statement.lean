import HandTemplate.Proofs.Layout.Body
import HandTemplate.Proofs.Layout.Header

/-!
# Reading statements

The rule for statements reads exactly what the layouts of statements allow. The rules for different
rooms are defined from one another, and the proofs go by induction on the room.
-/

namespace HandTemplate

namespace Statement

open Grammar Outcome Rule

variable {limit room : Nat}

/-! ## Assignments -/

/-- An assignment goes on with its value after the equals sign. -/
theorem assigned_run (expression : Rule Expr) (target : Binding) (p q : Position)
    (ts : List Lexeme) :
    run (assigned expression target p) (⟨.mark .equals, q⟩ :: ts) =
      expression.run ts >>= fun value => .ok (.assign target value.1 p, value.2) := by
  rw [run_eq_pair, assigned]
  exact pair_bind _ fun value => rfl

/-- What is read as an assignment is an equals sign and a value. -/
theorem assigned_sound {expression : Rule Expr} {target : Binding} {p : Position}
    {ts rest : List Lexeme} {s : Statement}
    (h : run (assigned expression target p) ts = .ok (s, rest)) :
    ∃ q after value, ts = ⟨.mark .equals, q⟩ :: after ∧ expression.run after = .ok (value, rest) ∧
      s = .assign target value p := by
  rcases mark_or_not .equals ts with ⟨q, after, rfl⟩ | hhead
  · rw [assigned_run] at h
    obtain ⟨⟨value, left⟩, hvalue, h⟩ := bind_eq_ok.mp h
    cases h
    exact ⟨q, after, value, rfl, hvalue, rfl⟩
  · rw [run_eq_pair, assigned] at h
    · cases h
    · exact ne_mark_cons hhead

/-! ## Loops -/

/-- A loop is its binding, the word, its source, the end of its header and its body. -/
theorem loop_run (expression : Rule Expr) (statement : Rule Statement) (p : Position)
    (ts : List Lexeme) :
    run (loop expression statement p) ts =
      run loopHead ts >>= fun binding =>
      pair (within binding.2) >>= fun between =>
      expression.run between.2 >>= fun source =>
      pair (headerEnd binding.1.2 source.2) >>= fun header =>
      run (body statement "'\x7b' or ':' after foreach header") header.2 >>= fun statements =>
        .ok (.foreach binding.1.1 source.1 statements.1 p, statements.2) :=
  pair_bind _ fun _ => pair_bind _ fun _ => pair_bind _ fun _ => pair_bind _ fun _ =>
    pair_bind _ fun _ => rfl

/-- A body does not continue the expression before it. -/
theorem body_follow {k : Nat} {p rest : List Lexeme} {statements : List Statement}
    (h : Body Written k p rest statements) (q : List Lexeme) : Follow q (p ++ rest) := by
  cases h with
  | @braces ns _ _ _ _ _ hns =>
    -- The expression ends at the brace or at a line end before it.
    cases ns with
    | nil => exact free_cons (by rintro m hm ⟨⟩; simp at hm) nofun
    | cons n ns => exact follow_separable (.inl (hns n (List.mem_cons_self ..)))
  | colonBraces => exact free_cons (by rintro m hm ⟨⟩; simp at hm) nofun
  | colon => exact free_cons (by rintro m hm ⟨⟩; simp at hm) nofun

/-- A loop is read if its body is with room for one level less. -/
theorem loop_reads {statement : Rule Statement}
    (hstatement : ReadsWriting limit room Written statement) {binding : Binding} {source : Expr}
    {statements : List Statement} {k m : Nat} {hs ps rest : List Lexeme}
    (hheader : Header k hs binding source) (hbody : Body Written m ps rest statements)
    (p : Position) :
    Within limit (max k (m + 1)) (room + 1)
      (run (loop (Expr.parse limit (room + 1)) statement p) (hs ++ (ps ++ rest)))
      (.foreach binding source statements p, rest) := by
  have hread := body_reads hstatement "'\x7b' or ':' after foreach header" hbody
  rw [loop_run]
  cases hheader with
  | @plain _ _ i _ hs qs hbound hsource =>
    rw [List.append_assoc, List.cons_append, loopHead_reads hbound]
    exact (Expr.parse_reads limit (room + 1) hsource (body_follow hbody qs)).bind
      (hread.succ.map rfl)
  | @wrapped _ _ opened i c _ hs qs hbound hsource =>
    -- Without parentheses it is the body that ends the source; here the closing parenthesis does.
    have hfollow : Follow qs (⟨.mark .rightParen, c⟩ :: (ps ++ rest)) :=
      follow_separable (.inr (.inr ⟨.paren, rfl⟩))
    rw [List.append_assoc, List.cons_append, List.append_assoc, loopHead_reads hbound]
    exact (Expr.parse_reads limit (room + 1) hsource hfollow).bind (hread.succ.map rfl)

/-- What is read as a loop after its keyword is a header and a body. -/
theorem loop_sound {statement : Rule Statement} (hstatement : SoundWriting room Written statement)
    {p : Position} {ts rest : List Lexeme} {s : Statement}
    (h : run (loop (Expr.parse limit (room + 1)) statement p) ts = .ok (s, rest)) :
    ∃ k m hs ps binding source statements, k ≤ room + 1 ∧ m ≤ room ∧ ts = hs ++ (ps ++ rest) ∧
      Header k hs binding source ∧ Body Written m ps rest statements ∧
      s = .foreach binding source statements p := by
  -- A loop reads its binding, the word, the source, the end of the header and the body in turn.
  rw [loop_run] at h
  obtain ⟨⟨⟨binding, opened⟩, left⟩, hhead, h⟩ := bind_eq_ok.mp h
  obtain ⟨⟨u, left'⟩, hwithin, h⟩ := bind_eq_ok.mp h
  obtain ⟨⟨source, after⟩, hsource, h⟩ := bind_eq_ok.mp h
  obtain ⟨⟨v, after'⟩, hend, h⟩ := bind_eq_ok.mp h
  obtain ⟨⟨statements, rest⟩, hstatements, h⟩ := bind_eq_ok.mp h
  cases h
  obtain ⟨hs, rfl, hbound⟩ := loopHead_sound hhead
  obtain ⟨i, rfl⟩ := within_sound hwithin
  obtain ⟨k, qs, hk, rfl, hspelled, -⟩ := Expr.parse_sound _ _ hsource
  obtain ⟨m, ps, hm, rfl, hbody⟩ := body_sound hstatement _ hstatements
  -- A parenthesis that the binding has left open is closed after the source.
  cases opened with
  | none =>
    have hafter := headerEnd_none_sound hend
    dsimp only at hafter
    subst hafter
    exact ⟨k, m, _, ps, _, _, _, hk, hm, by simp, .plain (i := i) hbound hspelled, hbody, rfl⟩
  | some opened =>
    obtain ⟨c, hclosed⟩ := headerEnd_some_sound hend
    dsimp only at hclosed
    subst hclosed
    exact ⟨k, m, _, ps, _, _, _, hk, hm, by simp, .wrapped (i := i) (c := c) hbound hspelled,
      hbody, rfl⟩

/-! ## Statements -/

section
variable (expression : Rule Expr) (argument : Option (Rule Expr)) (inner : Option (Rule Statement))

/-- A statement that begins with the word for loops is a loop, one level deeper. -/
theorem form_foreach (p : Position) (ts : List Lexeme) :
    run (form limit expression argument inner) (⟨.keyword .foreach, p⟩ :: ts) =
      Expr.oneDeeper limit inner p >>= fun statement => run (loop expression statement p) ts := by
  rw [run_eq_pair, form]
  cases Expr.oneDeeper limit inner p with
  | error e => rfl
  | ok statement => exact pair_widen _ _

/-- A statement that begins with a parenthesis assigns to the names in it. -/
theorem form_parens (p : Position) (ts : List Lexeme) :
    run (form limit expression argument inner) (⟨.mark .leftParen, p⟩ :: ts) =
      run (series Rule.name .paren p) ts >>= fun names =>
        run (assigned expression (.tuple names.1) p) names.2 := by
  rw [run_eq_pair, form]
  exact pair_bind _ fun names => pair_widen _ _

/-- A statement that begins with a name and an equals sign assigns to the name. -/
theorem form_name (name : String) (p q : Position) (ts : List Lexeme) :
    run (form limit expression argument inner)
        (⟨.identifier name, p⟩ :: ⟨.mark .equals, q⟩ :: ts) =
      run (assigned expression (.name name) p) (⟨.mark .equals, q⟩ :: ts) := by
  rw [run_eq_pair, form]
  exact pair_widen _ _

/-- A statement that begins with a name and a comma assigns to several names. -/
theorem form_bare (name : String) (p q : Position) (ts : List Lexeme) :
    run (form limit expression argument inner)
        (⟨.identifier name, p⟩ :: ⟨.mark .comma, q⟩ :: ts) =
      run nameList (⟨.identifier name, p⟩ :: ⟨.mark .comma, q⟩ :: ts) >>= fun names =>
        run (assigned expression (.tuple names.1) p) names.2 := by
  rw [run_eq_pair, form]
  exact pair_bind _ fun names => pair_widen _ _

/-- A statement that begins with a name and a parenthesis is a call, with its arguments one level
deeper. -/
theorem form_call (name : String) (p opened : Position) (ts : List Lexeme) :
    run (form limit expression argument inner)
        (⟨.identifier name, p⟩ :: ⟨.mark .leftParen, opened⟩ :: ts) =
      Expr.oneDeeper limit argument opened >>= fun rule =>
        run (series rule .paren opened) ts >>= fun arguments =>
          .ok (.call name arguments.1 p, arguments.2) := by
  rw [run_eq_pair, form]
  cases Expr.oneDeeper limit argument opened with
  | error e => rfl
  | ok rule => exact pair_bind _ fun arguments => rfl

end

/-- A statement is parsed with its arguments and its body one level deeper, if there is one. -/
theorem parse_eq (limit room : Nat) :
    parse limit room = form limit (Expr.parse limit room) (below (Expr.parse limit) room)
      (below (parse limit) room) := by
  cases room <;> rfl

/-- An equals sign is read after any target. -/
theorem target_reads {target : Binding} {p q : Position} {ts ps : List Lexeme}
    (h : Target p ts target) (expression : Rule Expr) (argument : Option (Rule Expr))
    (inner : Option (Rule Statement)) :
    run (form limit expression argument inner) (ts ++ ⟨.mark .equals, q⟩ :: ps) =
      run (assigned expression target p) (⟨.mark .equals, q⟩ :: ps) := by
  cases h with
  | name => rw [List.singleton_append, form_name]
  | @bare name _ r ns names hnames =>
    have hread : run nameList (⟨.identifier name, p⟩ :: ⟨.mark .comma, r⟩ :: ns ++
        ⟨.mark .equals, q⟩ :: ps) = .ok (name :: names, ⟨.mark .equals, q⟩ :: ps) :=
      nameList_reads (.more hnames) (by rintro t ⟨⟩; exact nofun)
    rw [List.cons_append, List.cons_append] at hread ⊢
    rw [form_bare, hread]
    rfl
  | parens hnames =>
    rw [List.cons_append, form_parens, series_name_reads _ hnames]
    rfl

/-- A statement is read if there is room for its levels, and is otherwise too deep. -/
theorem parse_reads (limit room : Nat) : ReadsWriting limit room Written (parse limit room) := by
  induction room using Nat.strongRecOn with
  | ind room ih =>
  intro k p rest s h
  rw [parse_eq]
  cases h with
  | assign htarget hvalue hrest =>
    rw [List.append_assoc, List.cons_append, target_reads htarget, assigned_run]
    exact (Expr.parse_reads limit room hvalue hrest).map rfl
  | call harguments =>
    -- The arguments stand one level deeper, wherever the call itself stands.
    rw [List.cons_append, List.cons_append, form_call]
    refine Within.deeper _ fun r hr => ?_
    exact (series_reads (Expr.parse_reads limit r) expression_opens follow_separable _ _ harguments
      trivial).map rfl
  | @foreach _ _ _ p k m _ _ _ hheader hbody =>
    -- The level for the body is asked for first, so that a loop without room is too deep at once.
    rw [List.cons_append, List.append_assoc, form_foreach]
    cases room with
    | zero => exact ⟨fun h => absurd h (by omega), fun _ => ⟨p, rfl⟩⟩
    | succ r => exact loop_reads (ih r (Nat.lt_succ_self r)) hheader hbody p

/-- What is read as the value of a target makes an assignment with it. -/
theorem assign_sound {target : Binding} {p : Position} {ts left rest : List Lexeme} {s : Statement}
    (htarget : Target p ts target)
    (h : run (assigned (Expr.parse limit room) target p) left = .ok (s, rest)) :
    ∃ k q, k ≤ room ∧ ts ++ left = q ++ rest ∧ Written k q rest s := by
  obtain ⟨q, after, value, rfl, hvalue, rfl⟩ := assigned_sound h
  obtain ⟨k, ps, hk, rfl, hspelled, hfollow⟩ := Expr.parse_sound _ _ hvalue
  exact ⟨k, _, hk, by simp, .assign (q := q) htarget hspelled hfollow⟩

/-- Only statements are read, and only such as there is room for. -/
theorem parse_sound (limit room : Nat) : SoundWriting room Written (parse limit room) := by
  -- By strong induction on the room, of which a loop takes a level from its body.
  induction room using Nat.strongRecOn with
  | ind room ih =>
  intro ts s rest h
  rw [parse_eq] at h
  -- The first token decides what the statement is, and after a name the second one.
  rcases ts with _ | ⟨⟨token, p⟩, ts⟩
  · cases h
  cases token with
  | keyword word =>
    cases word with
    | foreach =>
      rw [form_foreach, deeper_eq_ok] at h
      obtain ⟨r, rfl, h⟩ := h
      obtain ⟨k, m, hs, ps, _, _, _, hk, hm, rfl, hheader, hbody, rfl⟩ :=
        loop_sound (ih r (Nat.lt_succ_self r)) h
      exact ⟨max k (m + 1), _, by omega, by simp, .foreach hheader hbody⟩
    | _ => cases h
  | mark m =>
    cases m with
    | leftParen =>
      rw [form_parens] at h
      obtain ⟨⟨names, left⟩, hnames, hassign⟩ := bind_eq_ok.mp h
      obtain ⟨k, ns, rfl, hspelled⟩ := series_name_sound hnames
      exact assign_sound (.parens hspelled) hassign
    | _ => cases h
  | identifier name =>
    rcases ts with _ | ⟨⟨token, q⟩, ts⟩
    · cases h
    cases token with
    | mark m =>
      cases m with
      | equals =>
        rw [form_name] at h
        exact assign_sound .name h
      -- Names without parentheses: the first is the one in front of the comma.
      | comma =>
        rw [form_bare] at h
        obtain ⟨⟨names, left⟩, hnames, hassign⟩ := bind_eq_ok.mp h
        rw [nameList_more] at hnames
        obtain ⟨⟨others, left⟩, hothers, hnames⟩ := bind_eq_ok.mp hnames
        cases hnames
        obtain ⟨ns, rfl, hspelled⟩ := nameList_sound hothers
        exact assign_sound (.bare hspelled) hassign
      | leftParen =>
        rw [form_call, deeper_eq_ok] at h
        obtain ⟨r, rfl, h⟩ := h
        obtain ⟨⟨arguments, left⟩, hseries, h⟩ := bind_eq_ok.mp h
        cases h
        obtain ⟨k, ps, hk, rfl, hspelled, -⟩ := series_sound (Expr.parse_sound limit r) _ _ hseries
        exact ⟨k + 1, _, Nat.succ_le_succ hk, rfl, .call hspelled⟩
      | _ => cases h
    | _ => cases h
  | _ => cases h

end Statement

end HandTemplate
