import HandTemplate.Proofs.Finality.Statement
import HandTemplate.Proofs.Layout.Limit

/-!
# Programs and what follows them

Whatever is read of a program is read in order, and no rule looks further than at the next lexeme
that is no line end. So a fault at such a lexeme is final: no text that goes on after it has another
fault, or is a program (`parse_final`).
-/

namespace HandTemplate

open Grammar Rule

variable {W more : List Lexeme}

namespace Datum

/-- A single value is decided by the lexemes up to it. -/
theorem single_continues : Continuing W more single := by
  intro ts hts
  rcases ts with _ | ⟨t, ts⟩
  · exact .of_nil (.error (.endOfText _))
  -- The first lexeme alone decides, whether it is a value or not.
  cases heq : ofToken? t.token with
  | some value =>
    have hread : ∀ us, run single (t :: us) = .ok (value, us) := by
      intro us
      rw [run_eq_pair]
      unfold single
      dsimp only
      rw [heq]
      rfl
    refine .of_head (fun ht => ?_) ?_
    · rw [ht] at heq
      cases heq
    · rw [hread, hread]
      exact .ok (suffix_of_cons hts)
  | none =>
    have hread : ∀ us, run single (t :: us) = .error (expecting "metadata value" (t :: us)) := by
      intro us
      rw [run_eq_pair]
      unfold single
      dsimp only
      rw [heq]
      rfl
    exact (Continues.expecting _ hts).congr (hread ts) (hread (ts ++ more))

/-- A list of values in terms of what its items give as pairs. -/
theorem items_run (d : Delimiter) (opened : Position) (ts : List Lexeme) :
    run (items d opened) ts =
      match ts.dropWhile (isListSeparator ·.token) with
      | [] => .error (.unclosed d opened)
      | t :: after =>
        if t.token = .mark d.closing then .ok ([], after)
        else run single (t :: after) >>= fun first =>
          run (items d opened) first.2 >>= fun others => .ok (first.1 :: others.1, others.2) := by
  rw [run_eq_pair]
  -- The list is read by the same cases, with bounds on what is left that the pairs do not carry.
  unfold items
  split
  next heq =>
    simp only [heq]
    rfl
  next t after heq =>
    simp only [heq]
    split
    · rfl
    · exact pair_bind _ fun first => pair_bind _ fun others => rfl

/-- The items of a list are decided by the lexemes up to the closing mark. -/
theorem items_continues (d : Delimiter) (opened : Position) :
    Continuing W more (items d opened) := fun _ hts =>
  repetition_continues (fun t ht => by simp [isListSeparator, ht]) (items_run d opened)
    single_continues hts

/-- A parenthesis or a bracket begins a list of values. -/
theorem parse_list {d : Delimiter} (hd : d = .paren ∨ d = .bracket) (opened : Position)
    (ts : List Lexeme) :
    run Datum.parse (⟨.mark d.opening, opened⟩ :: ts) =
      run (items d opened) ts >>= fun values => .ok (.list values.1, values.2) := by
  rcases hd with rfl | rfl <;> exact pair_bind _ fun values => rfl

/-- Anything else is a single value. -/
theorem parse_single {t : Lexeme} (hparen : t.token ≠ .mark .leftParen)
    (hbracket : t.token ≠ .mark .leftBracket) (ts : List Lexeme) :
    run Datum.parse (t :: ts) = run single (t :: ts) := by
  rw [run_eq_pair, Datum.parse]
  · rfl
  · rintro opened after ⟨⟩
    exact hparen rfl
  · rintro opened after ⟨⟩
    exact hbracket rfl

/-- A value of the metadata is decided by the lexemes up to its end. -/
theorem parse_continues : Continuing W more Datum.parse := by
  intro ts hts
  rcases ts with _ | ⟨t, ts⟩
  · exact .of_nil (.error (.endOfText _))
  by_cases hlist : ∃ d : Delimiter, (d = .paren ∨ d = .bracket) ∧ t.token = .mark d.opening
  · obtain ⟨d, hd, ht⟩ := hlist
    obtain ⟨_, opened⟩ := t
    cases ht
    refine .of_head nofun ?_
    rw [parse_list hd, parse_list hd]
    exact (items_continues d opened ts (suffix_of_cons hts)).prolonged.bind
      fun values rest _ hrest => Continues.ok (Datum.list values) hrest
  · have hsingle : ∀ us, run Datum.parse (t :: us) = run single (t :: us) :=
      parse_single (fun ht => hlist ⟨.paren, .inl rfl, ht⟩)
        fun ht => hlist ⟨.bracket, .inr rfl, ht⟩
    exact (single_continues _ hts).congr (hsingle ts) (hsingle (ts ++ more))

end Datum

namespace Metadata

/-- A key is decided by its lexeme. -/
theorem key_continues : Continuing W more key := by
  intro ts hts
  rcases ts with _ | ⟨⟨token, p⟩, ts⟩
  · exact .of_nil (.error (.endOfText _))
  cases token with
  | identifier name => exact .of_head nofun (.ok (suffix_of_cons hts))
  | text name => exact .of_head nofun (.ok (suffix_of_cons hts))
  | tile name => exact .of_head nofun (.ok (suffix_of_cons hts))
  | newline => exact ⟨.error _, fun hnewlines => .error (atEnd_of_newlines hts hnewlines rfl)⟩
  | _ => exact .of_head nofun (.error _)

/-- The sign of an assignment is looked for at the first lexeme only. -/
theorem dropAssignment_append {ts : List Lexeme} (hts : ts ≠ []) (more : List Lexeme) :
    dropAssignment (ts ++ more) = dropAssignment ts ++ more := by
  obtain ⟨t, ts, rfl⟩ := List.exists_cons_of_ne_nil hts
  unfold dropAssignment
  dsimp only [List.cons_append]
  split <;> rfl

/-- What follows an equals sign is the end of what was there. -/
theorem dropAssignment_suffix (ts : List Lexeme) : dropAssignment ts <:+ ts := by
  unfold dropAssignment
  split
  · split
    · exact List.suffix_cons _ _
    · exact List.suffix_rfl
  · exact List.suffix_rfl

/-- The value of an entry is decided, whatever sign it comes after. -/
theorem assigned_continues {ts : List Lexeme} (hts : ts <:+ W) :
    Continues W more (fun us => run Datum.parse (dropAssignment us)) ts := by
  have hparse : Continuing W more Datum.parse := Datum.parse_continues
  by_cases hnil : ts = []
  · subst hnil
    exact .of_nil ((hparse [] hts).undecided newlines_nil)
  have hvalue := hparse _ ((dropAssignment_suffix ts).trans hts)
  refine ⟨?_, fun hnewlines => hvalue.undecided fun t ht =>
    hnewlines t ((dropAssignment_suffix ts).subset ht)⟩
  rw [dropAssignment_append hnil]
  exact hvalue.prolonged

/-- An entry in terms of what its key and its value give as pairs. -/
theorem entry_run (ts : List Lexeme) :
    run entry ts = run key ts >>= fun name =>
      run Datum.parse (dropAssignment name.2) >>= fun value =>
        .ok ((name.1, value.1), value.2) :=
  pair_bind _ fun _ => pair_bind _ fun _ => rfl

/-- An entry is decided by the lexemes up to its end. -/
theorem entry_continues : Continuing W more entry := by
  intro ts hts
  rw [funext entry_run]
  refine (key_continues ts hts).bind fun name rest _ hrest => ?_
  dsimp only
  exact (assigned_continues hrest).bind fun value rest _ hrest => .ok (name, value) hrest

/-- The entries of a block in terms of what each of them gives as a pair. -/
theorem blockEntries_run (opened : Position) (ts : List Lexeme) :
    run (blockEntries opened) ts =
      match ts.dropWhile (isEntrySeparator ·.token) with
      | [] => .error (.unclosed .brace opened)
      | t :: after =>
        if t.token = .mark .rightBrace then .ok ([], after)
        else run entry (t :: after) >>= fun first =>
          run (blockEntries opened) first.2 >>= fun others =>
            .ok (first.1 :: others.1, others.2) := by
  rw [run_eq_pair]
  -- The entries are read by the same cases, with bounds on what is left that the pairs do not
  -- carry.
  unfold blockEntries
  split
  next heq =>
    simp only [heq]
    rfl
  next t after heq =>
    simp only [heq]
    split
    · rfl
    · exact pair_bind _ fun first => pair_bind _ fun others => rfl

/-- The entries of a block are decided by the lexemes up to the closing brace. -/
theorem blockEntries_continues (opened : Position) : Continuing W more (blockEntries opened) :=
  fun _ hts => repetition_continues (fun t ht => by simp [isEntrySeparator, ht])
    (blockEntries_run opened) entry_continues hts

/-- The entries of a metadata block stand in braces. -/
theorem parse_braces (p : Position) {ts after : List Lexeme} {opened : Position}
    (h : dropNewlines (dropAssignment ts) = ⟨.mark .leftBrace, opened⟩ :: after) :
    run Metadata.parse (⟨.keyword .metadata, p⟩ :: ts) =
      run (blockEntries opened) after >>= fun stored => .ok (Record.ofList stored.1, stored.2) := by
  rw [run_eq_pair]
  unfold Metadata.parse
  dsimp only
  split
  next heq =>
    rw [h] at heq
    cases heq
    exact pair_bind _ fun stored => rfl
  next heq => exact absurd h (heq _ _)

/-- There is no metadata block without braces. -/
theorem parse_error (p : Position) {ts : List Lexeme}
    (h : ∀ opened after, dropNewlines (dropAssignment ts) ≠ ⟨.mark .leftBrace, opened⟩ :: after) :
    run Metadata.parse (⟨.keyword .metadata, p⟩ :: ts) =
      .error (expecting "'\x7b' after 'metadata'" (dropNewlines (dropAssignment ts))) := by
  rw [run_eq_pair]
  unfold Metadata.parse
  dsimp only
  split
  next heq => exact absurd heq (h _ _)
  · rfl

/-- The block after its keyword is decided by the first lexeme that is no line end. -/
theorem block_prolonged (p : Position) {ts : List Lexeme} (hts : ts <:+ W) :
    Prolonged W more (run Metadata.parse (⟨.keyword .metadata, p⟩ :: ts))
      (run Metadata.parse (⟨.keyword .metadata, p⟩ :: (ts ++ more))) := by
  have hdrop : dropNewlines (dropAssignment ts) <:+ W :=
    (List.dropWhile_suffix _).trans ((dropAssignment_suffix ts).trans hts)
  -- Up to line ends, the brace may still come; any other lexeme is the brace or a fault.
  cases heq : dropNewlines (dropAssignment ts) with
  | nil =>
    rw [parse_error _ (heq ▸ nofun), heq]
    exact .undecided (.error (.endOfText _)) _
  | cons t after =>
    rw [heq] at hdrop
    have hnil : ts ≠ [] := by
      rintro rfl
      cases heq
    have heq' : dropNewlines (dropAssignment (ts ++ more)) = t :: (after ++ more) := by
      rw [dropAssignment_append hnil]
      exact dropWhile_append_eq_cons heq more
    -- With the brace, the entries decide from there on.
    by_cases ht : t.token = .mark .leftBrace
    · obtain ⟨_, opened⟩ := t
      cases ht
      rw [parse_braces _ heq, parse_braces _ heq']
      exact (blockEntries_continues opened _ (suffix_of_cons hdrop)).prolonged.bind
        fun stored rest _ hrest => Continues.ok (Record.ofList stored) hrest
    · have hnone : ∀ (us : List Lexeme) (opened : Position) (after' : List Lexeme),
          t :: us ≠ ⟨.mark .leftBrace, opened⟩ :: after' := by
        rintro us opened after' ⟨⟩
        exact ht rfl
      rw [parse_error _ (heq ▸ hnone _), parse_error _ (heq' ▸ hnone _), heq, heq']
      exact .error _

/-- The metadata are decided by the lexemes up to their end. -/
theorem parse_continues : Continuing W more Metadata.parse := by
  intro ts hts
  rcases ts with _ | ⟨⟨token, p⟩, ts⟩
  · exact .of_nil (.error (.endOfText _))
  cases token with
  | keyword word =>
    cases word with
    | metadata => exact .of_head nofun (block_prolonged p (suffix_of_cons hts))
    | _ => exact .of_head nofun (.error _)
  | newline => exact ⟨.error _, fun hnewlines => .error (atEnd_of_newlines hts hnewlines rfl)⟩
  | _ => exact .of_head nofun (.error _)

end Metadata

namespace Program

variable {limit : Nat} {ts : List Lexeme}

/-- The variations are decided by the lexemes up to their end. -/
theorem variations_continues (limit : Nat) : Continuing W more (variations limit) := by
  have hbody : Continuing W more (Statement.body (Statement.parse limit limit) expectedBody) :=
    Statement.body_continues (Statement.parse_continues limit limit) expectedBody
  intro ts hts
  rcases ts with _ | ⟨⟨token, p⟩, ts⟩
  · exact .of_nil (.error (.endOfText _))
  have hafter := suffix_of_cons hts
  cases token with
  | keyword word =>
    cases word with
    | variations =>
      refine .of_head nofun ?_
      -- An equals sign may follow the word.
      rcases ts with _ | ⟨t, ts⟩
      · rw [variations_plain _ (by simp)]
        exact .undecided ((hbody [] List.nil_suffix).undecided newlines_nil) _
      by_cases ht : t.token = .mark .equals
      · obtain ⟨_, q⟩ := t
        cases ht
        rw [List.cons_append, variations_equals, variations_equals]
        exact (hbody ts (suffix_of_cons hafter)).prolonged
      · have hhead : ∀ us, ∀ u ∈ (t :: us).head?, u.token ≠ .mark .equals := by
          rintro us u ⟨⟩
          exact ht
        rw [List.cons_append, variations_plain _ (hhead _), variations_plain _ (hhead _)]
        exact (hbody _ hafter).prolonged
    | _ => exact .of_head nofun (.error _)
  | newline => exact ⟨.error _, fun hnewlines => .error (atEnd_of_newlines hts hnewlines rfl)⟩
  | _ => exact .of_head nofun (.error _)

/-- A rule is run after separators as it is without them. -/
theorem continues_dropSeparators {α : Type} {rule : Rule α} (hrule : Continuing W more rule)
    (hts : ts <:+ W) : Continues W more (fun us => rule.run (dropSeparators us)) ts := by
  refine .dropSeparators hts (fun heq => ?_) fun t after heq heq' hafter => ?_
  · rw [heq]
    exact (hrule [] List.nil_suffix).undecided newlines_nil
  · rw [heq, heq']
    exact (hrule _ hafter).prolonged

/-- With more lexemes, a program or the fault of one stays the same unless it is undecided. -/
theorem parse_prolonged (limit : Nat) (ts more : List Lexeme) :
    Prolonged ts more (parse limit ts >>= fun program => .ok (program, []))
      (parse limit (ts ++ more) >>= fun program => .ok (program, [])) := by
  rw [parse_eq, parse_eq, bind_assoc, bind_assoc]
  refine (continues_dropSeparators Metadata.parse_continues List.suffix_rfl).prolonged.bind
    fun metadata rest _ hrest => ?_
  dsimp only
  simp only [bind_assoc]
  refine (continues_dropSeparators (variations_continues limit) hrest).bind
    fun body rest _ hrest => ?_
  dsimp only
  refine .dropSeparators hrest (fun heq => ?_) fun t after heq heq' _ => ?_
  · rw [heq]
    exact .ok newlines_nil List.nil_suffix
  · rw [heq, heq']
    exact .error _

/-- A fault that is not at the end of the lexemes is the fault of all lexemes that begin with them.
So if some of these are a program or have another fault, then the lexemes before were a program
already, or their fault was at the end. -/
theorem parse_final (limit : Nat) (ts more : List Lexeme) :
    (∀ e, parse limit ts = .error e → ¬ e.AtEnd ts → parse limit (ts ++ more) = .error e) ∧
      (parse limit (ts ++ more) ≠ parse limit ts →
        (∃ program, parse limit ts = .ok program) ∨
          ∃ e, parse limit ts = .error e ∧ e.AtEnd ts) := by
  -- A fault that is not at the end is not undecided, so that it is prolonged to itself.
  have hfinal : ∀ e, parse limit ts = .error e → ¬ e.AtEnd ts →
      parse limit (ts ++ more) = .error e := by
    intro e he hend
    have hprolonged := parse_prolonged limit ts more
    rw [he] at hprolonged
    change Prolonged ts more (.error e) _ at hprolonged
    cases hmore : parse limit (ts ++ more) with
    | ok program =>
      rw [hmore] at hprolonged
      cases hprolonged with
      | undecided hr => cases hr with | error hend' => exact absurd hend' hend
    | error e' =>
      rw [hmore] at hprolonged
      cases hprolonged with
      | error => rfl
      | undecided hr => cases hr with | error hend' => exact absurd hend' hend
  refine ⟨hfinal, fun hne => ?_⟩
  cases hts : parse limit ts with
  | ok program => exact .inl ⟨program, rfl⟩
  | error e =>
    refine .inr ⟨e, rfl, ?_⟩
    by_contra hend
    exact hne (by rw [hts, hfinal e hts hend])

/-- A metadata block without a brace stays one whatever follows, although the brace may come after a
line end. -/
theorem parse_final_metadata :
    let ts : List Lexeme :=
      [⟨.keyword .metadata, ⟨1, 1⟩⟩, ⟨.newline, ⟨1, 9⟩⟩, ⟨.keyword .variations, ⟨2, 1⟩⟩]
    let e := GrammarFault.unexpected "'\x7b' after 'metadata'" (.keyword .variations) ⟨2, 1⟩
    parse 64 ts = .error e ∧ ¬ e.AtEnd ts ∧
      parse 64 (ts ++ [⟨.mark .leftBrace, ⟨2, 12⟩⟩]) = .error e := by
  intro ts e
  have hfault : parse 64 ts = .error e := rfl
  have hend : ¬ e.AtEnd ts := by
    intro hend
    -- The fault is at the last lexeme, which is a word.
    generalize he : e = fault at hend
    cases hend with
    | endOfText | unclosed => simp [e] at he
    | @newlines _ t before after hts hposition hnewlines =>
      subst he
      have hmem : t ∈ ts := by simp [hts]
      have htoken := hnewlines t (List.mem_cons_self ..)
      simp only [ts, List.mem_cons, List.not_mem_nil, or_false] at hmem
      rcases hmem with rfl | rfl | rfl
      · cases htoken
      · cases hposition
      · cases htoken
  exact ⟨hfault, hend, (parse_final 64 ts _).1 e hfault hend⟩

end Program

end HandTemplate
