import HandTemplate.Proofs.Progress.Ending

/-!
# The loops of a program end

The loops for names, statements, entries and values end like those for expressions, and give what
the rules of the grammar give (`program_eq`). So every text is a program or has a fault, however
deep its nesting and wherever it breaks off. Main statement: `Program.parse_ends`.
-/

namespace HandTemplate

namespace Looping

open Grammar (mark_or_not below)
open Rule (dropNewlines dropSeparators isSeparator run pair)
open Running (ended bind_ended)

variable {limit room : Nat}

/-! ## Names and headers -/

/-- Names are read to their end, and leave a proper part. -/
theorem name_progresses : name.Progresses Rule.name := ⟨fun _ => rfl, Rule.name_advances⟩

/-- Names with commas between them, in terms of the first one. -/
theorem nameList_run (ts : List Lexeme) :
    run Statement.nameList ts = run Rule.name ts >>= fun first =>
      match eat? .comma first.2 with
      | none => .ok ([first.1], first.2)
      | some (_, after) =>
        run Statement.nameList after >>= fun others => .ok (first.1 :: others.1, others.2) := by
  rw [Rule.run_eq_pair]
  conv => lhs; unfold Statement.nameList
  refine Rule.pair_bind _ fun first => ?_
  dsimp only
  split
  next heq =>
    simp only [heq, eat?_mark]
    exact Rule.pair_bind _ fun others => rfl
  -- What is no comma ends the names for the rule as for the loop.
  next hcomma =>
    have hhead : ∀ t ∈ first.rest.head?, t.token ≠ .mark .comma := by
      rcases mark_or_not .comma first.rest with ⟨p, after, heq⟩ | hhead
      · exact absurd heq (hcomma _ _)
      · exact hhead
    simp only [eat?_eq_none hhead]
    rfl

/-- The loop for names ends, and reads more of them exactly after a comma. -/
theorem names_eq (names : List String) (ts : List Lexeme) :
    loop namesTurn names ts =
      ended (match eat? .comma ts with
        | none => .ok (names, ts)
        | some (_, after) => behind names (run Statement.nameList after)) := by
  -- Between turns the loop stands before a comma or at the end, which the equation tells apart.
  refine loop_eq namesTurn_shortens (f := fun names ts => match eat? .comma ts with
    | none => .ok (names, ts)
    | some (_, after) => behind names (run Statement.nameList after)) (fun names ts => ?_) names ts
  unfold namesTurn
  cases eat? .comma ts with
  | none => rfl
  | some next =>
    dsimp only
    rw [nameList_run, behind_bind, bind_assoc]
    refine bind_ended (name_progresses.gives _) fun ⟨other, rest⟩ _ => ?_
    show ended (match eat? .comma rest with
      | none => .ok (names ++ [other], rest)
      | some (_, after) => behind (names ++ [other]) (run Statement.nameList after)) = _
    dsimp only
    cases eat? .comma rest with
    | none => rfl
    | some next' => exact congrArg ended (behind_one names other _).symm

/-- Names with commas between them are read to their end. -/
theorem nameList_gives : nameList.Gives Statement.nameList := by
  intro ts
  rw [nameList_run]
  refine bind_ended (name_progresses.gives ts) fun ⟨first, rest⟩ _ => ?_
  dsimp only
  rw [names_eq]
  cases eat? .comma rest with
  | none => rfl
  | some next => rfl

/-- The head of a loop is read to its end. -/
theorem loopHead_gives : loopHead.Gives Statement.loopHead := by
  intro ts
  unfold loopHead
  -- Two parentheses, one or none, as for the rule.
  rcases mark_or_not .leftParen ts with ⟨opened, ts, rfl⟩ | hhead
  · rw [eat?_mark]
    dsimp only
    rcases mark_or_not .leftParen ts with ⟨inner, ts, rfl⟩ | hhead
    · rw [Statement.loopHead_twice, eat?_mark]
      exact bind_ended (series_gives name_progresses .paren inner ts)
        fun names _ => rfl
    · rw [Statement.loopHead_paren _ hhead, eat?_eq_none hhead]
      refine bind_ended (nameList_gives ts) fun ⟨names, rest⟩ _ => ?_
      rcases names with _ | ⟨name, _ | ⟨second, others⟩⟩
      case cons.nil => rfl
      all_goals
        rcases rest with _ | ⟨t, after⟩
        · rfl
        dsimp only
        split <;> rfl
  · rw [Statement.loopHead_bare hhead, eat?_eq_none hhead]
    refine bind_ended (nameList_gives ts) fun ⟨names, rest⟩ _ => ?_
    rcases names with _ | ⟨name, _ | ⟨second, others⟩⟩ <;> rfl

/-! ## Bodies -/

section
variable {reading : Looping Statement} {rule : Rule Statement}
  (hreading : reading.Progresses rule)
include hreading

/-- Statements in braces are read to their end if each of them is. -/
theorem bracedStatements_gives (opened : Position) :
    Gives (bracedStatements reading opened) (Statement.bracedStatements rule opened) :=
  items_eq hreading (Statement.bracedStatements_run rule opened)

/-- Statements after a colon are read to their end if each of them is. -/
theorem openStatements_eq (ts : List Lexeme) :
    openStatements reading ts = ended (pair (Statement.openStatements rule ts)) := by
  -- A turn drops separators and then sees the end, the word, a brace or a statement.
  have hloop : ∀ statements ts, loop (openTurn reading) statements ts =
      ended (behind statements (pair (Statement.openStatements rule ts))) := by
    refine loop_eq (openTurn_shortens hreading.looping_advances) fun statements ts => ?_
    unfold openTurn
    rw [Statement.openStatements_run]
    cases dropSeparators ts with
    | nil => exact congrArg ended (behind_none statements _).symm
    | cons t after =>
      dsimp only
      split
      · rcases mark_or_not .colon after with ⟨p, after, rfl⟩ | hhead
        · rw [eat?_mark]
          exact congrArg ended (behind_none statements _).symm
        rw [eat?_eq_none hhead]
        dsimp only
        split
        · exact absurd rfl (hhead _ rfl)
        · exact congrArg ended (behind_none statements _).symm
      split
      · exact congrArg ended (behind_none statements _).symm
      rw [bind_assoc, Statement.readOne, behind_bind]
      refine bind_ended (hreading.gives _) fun ⟨first, left⟩ _ => ?_
      exact congrArg ended (behind_one statements first _).symm
  rw [openStatements, hloop, behind_nil]

/-- Bodies are read to their end if the statements in them are. -/
theorem body_gives (expected : String) :
    Gives (body reading expected) (Statement.body rule expected) := by
  intro ts
  unfold body
  -- A brace at once, a brace after a colon, a colon alone, or none of these.
  rcases mark_or_not .leftBrace (dropNewlines ts) with ⟨opened, after, heq⟩ | hbrace
  · rw [Statement.body_braces _ _ heq, heq, eat?_mark]
    exact bracedStatements_gives hreading opened after
  rw [eat?_eq_none hbrace]
  dsimp only
  rcases mark_or_not .colon ts with ⟨p, ts, rfl⟩ | hcolon
  · rw [eat?_mark]
    dsimp only
    rcases mark_or_not .leftBrace (dropNewlines ts) with ⟨opened, after, heq⟩ | hbrace
    · rw [Statement.body_colonBraces _ _ _ heq, heq, eat?_mark]
      exact bracedStatements_gives hreading opened after
    · rw [Statement.body_colon _ _ _ (Grammar.ne_mark_cons hbrace), eat?_eq_none hbrace]
      exact openStatements_eq hreading ts
  · rw [Statement.body_error _ _ (Grammar.ne_mark_cons hbrace) hcolon, eat?_eq_none hcolon]
    rfl

end

/-! ## Statements -/

section
variable {expression' : Looping Expr} {expr : Rule Expr} (hexpression : expression'.Gives expr)
include hexpression

/-- The rest of an assignment is read to its end. -/
theorem assigned_gives (target : Binding) (p : Position) :
    Gives (assigned expression' target p) (Statement.assigned expr target p) := by
  intro ts
  unfold assigned
  rcases mark_or_not .equals ts with ⟨q, ts, rfl⟩ | hhead
  · rw [Statement.assigned_run, eat?_mark]
    exact bind_ended (hexpression ts) fun value _ => rfl
  · rw [Statement.assigned_error _ _ _ hhead, eat?_eq_none hhead]
    rfl

/-- Loops are read to their end if the statements in them are. -/
theorem foreach_gives {reading : Looping Statement} {rule : Rule Statement}
    (hreading : reading.Progresses rule) (p : Position) :
    Gives (foreach expression' reading p) (Statement.loop expr rule p) := by
  intro ts
  rw [Statement.loop_run]
  refine bind_ended (loopHead_gives ts) fun binding _ => ?_
  refine bind_ended rfl fun between _ => ?_
  refine bind_ended (hexpression _) fun source _ => ?_
  refine bind_ended rfl fun header _ => ?_
  exact bind_ended (body_gives hreading _ _) fun statements _ => rfl

end

/-- A statement is made of its parts at this level and one level deeper. -/
theorem statement_eq (limit room : Nat) :
    statement limit room = form limit (expression limit room) (below (expression limit) room)
      (below (statement limit) room) := by
  cases room <;> rfl

/-- Statements are read to their ends. -/
theorem statement_progresses (limit room : Nat) :
    (statement limit room).Progresses (Statement.parse limit room) := by
  -- By induction on the room, with a case for each beginning of a statement.
  induction room using Nat.strongRecOn with
  | ind room ih =>
  have hexpression := (expression_progresses limit room).gives
  refine ⟨fun ts => ?_, Statement.parse_advances limit room⟩
  rw [statement_eq, Statement.parse_eq]
  rcases ts with _ | ⟨⟨token, p⟩, ts⟩
  · rfl
  cases token with
  | keyword word =>
    cases word with
    | foreach =>
      rw [Statement.form_foreach]
      exact deeper_ended p fun n hn =>
        foreach_gives hexpression (ih n hn) p ts
    | _ => rfl
  | mark m =>
    cases m with
    | leftParen =>
      rw [Statement.form_parens]
      exact bind_ended (series_gives name_progresses .paren p ts)
        fun names _ => assigned_gives hexpression (.tuple names.1) p names.2
    | _ => rfl
  | identifier name =>
    rcases ts with _ | ⟨⟨token, q⟩, ts⟩
    · rfl
    cases token with
    | mark m =>
      cases m with
      | equals =>
        rw [Statement.form_name]
        exact assigned_gives hexpression (.name name) p (⟨.mark .equals, q⟩ :: ts)
      | comma =>
        rw [Statement.form_bare]
        exact bind_ended (nameList_gives _)
          fun names _ => assigned_gives hexpression (.tuple names.1) p names.2
      | leftParen =>
        rw [Statement.form_call]
        exact deeper_ended q fun n _ => bind_ended
          (series_gives (expression_progresses limit n) .paren q ts) fun arguments _ => rfl
      | _ => rfl
    | _ => rfl
  | _ => rfl

/-! ## Blocks -/

/-- Single values are read to their end, and leave a proper part. -/
theorem single_progresses : single.Progresses Datum.single :=
  ⟨fun _ => rfl, Datum.single_advances⟩

/-- The items of a list are read to their end. -/
theorem listItems_gives (d : Delimiter) (opened : Position) :
    Gives (listItems d opened) (Datum.items d opened) :=
  items_eq single_progresses (Datum.items_run d opened)

/-- Values of the metadata are read to their end. -/
theorem datum_gives : datum.Gives Datum.parse := by
  intro ts
  rcases ts with _ | ⟨⟨token, p⟩, ts⟩
  · rfl
  cases token with
  | mark m =>
    cases m with
    | leftParen =>
      have hrun := Datum.parse_list (.inl rfl : Delimiter.paren = .paren ∨ _) p ts
      exact (bind_ended (listItems_gives .paren p ts) fun values _ => rfl).trans
        (congrArg ended hrun.symm)
    | leftBracket =>
      have hrun := Datum.parse_list (.inr rfl : Delimiter.bracket = .paren ∨ _) p ts
      exact (bind_ended (listItems_gives .bracket p ts) fun values _ => rfl).trans
        (congrArg ended hrun.symm)
    | _ => rfl
  | _ => rfl

/-- Entries are read to their end, and leave a proper part. -/
theorem entry_progresses : entry.Progresses Metadata.entry := by
  refine ⟨fun ts => ?_, Metadata.entry_advances⟩
  rw [Metadata.entry_run]
  refine bind_ended rfl fun name _ => ?_
  exact bind_ended (datum_gives _) fun value _ => rfl

/-- The metadata are read to their end, and leave a proper part. -/
theorem metadata_progresses : metadata.Progresses Metadata.parse := by
  refine ⟨fun ts => ?_, Metadata.parse_advances⟩
  rcases ts with _ | ⟨⟨token, p⟩, ts⟩
  · rfl
  cases token with
  | keyword word =>
    cases word with
    | metadata =>
      rw [metadata]
      rcases mark_or_not .leftBrace (dropNewlines (Metadata.dropAssignment ts)) with
        ⟨opened, after, heq⟩ | hhead
      · rw [Metadata.parse_braces _ heq, heq, eat?_mark]
        exact bind_ended (items_eq entry_progresses (Metadata.blockEntries_run opened) after)
          fun stored _ => rfl
      · rw [Metadata.parse_error _ (Grammar.ne_mark_cons hhead), eat?_eq_none hhead]
        rfl
    | _ => rfl
  | _ => rfl

/-- The variations are read to their end, and leave a proper part. -/
theorem variations_progresses (limit : Nat) :
    (variations limit).Progresses (Program.variations limit) := by
  have hbody := body_gives (statement_progresses limit limit) Program.expectedBody
  refine ⟨fun ts => ?_, Program.variations_advances limit⟩
  rcases ts with _ | ⟨⟨token, p⟩, ts⟩
  · rfl
  cases token with
  | keyword word =>
    cases word with
    | variations =>
      rw [variations]
      rcases mark_or_not .equals ts with ⟨q, ts, rfl⟩ | hhead
      · rw [Program.variations_equals, eat?_mark]
        exact hbody ts
      · rw [Program.variations_plain _ hhead, eat?_eq_none hhead]
        exact hbody ts
    | _ => rfl
  | _ => rfl

/-- A whole program is read to its end, in loops as by the rules. -/
theorem program_eq (limit : Nat) (ts : List Lexeme) :
    program limit ts = ended (Program.parse limit ts) := by
  rw [Program.parse_eq]
  refine bind_ended (metadata_progresses.gives _) fun metadata _ => ?_
  refine bind_ended ((variations_progresses limit).gives _) fun body _ => ?_
  dsimp only
  cases dropSeparators body.2 <;> rfl

/-! ## All rules and all loops -/

/-- Every rule that is read where `room` levels are left ends, and leaves a proper part of what it
was given. -/
structure RulesProgress (limit room : Nat) : Prop where
  /-- An expression is read to its end. -/
  expression : (expression limit room).Progresses (Expr.parse limit room)
  /-- An operand of a sum is read to its end. -/
  product : (product limit room).Progresses (Expr.product limit room)
  /-- An operand of a product is read to its end. -/
  factor : (factor limit room).Progresses (Expr.factor limit room)
  /-- What stands in front of indices is read to its end. -/
  atom : Progresses (atom limit (below (Looping.expression limit) room))
    (Expr.atom limit (Expr.nested limit room))
  /-- A statement is read to its end. -/
  statement : (statement limit room).Progresses (Statement.parse limit room)
  /-- The body of a loop or of the variations is read to its end. -/
  body : ∀ expected : String, Progresses (body (Looping.statement limit room) expected)
    (Statement.body (Statement.parse limit room) expected)
  /-- The variations are read to their end. -/
  variations : (variations limit).Progresses (Program.variations limit)
  /-- The metadata are read to their end. -/
  metadata : metadata.Progresses Metadata.parse
  /-- A series is read to its end if its items are, which are expressions or names. -/
  series : ∀ {α : Type} {item : Looping α} {rule : Rule α}, item.Progresses rule →
    ∀ d opened, Progresses (series item d opened) (Rule.series rule d opened)
  /-- A name of a binding is read to its end. -/
  name : name.Progresses Rule.name

/-- All rules end and leave a proper part of what they are given. -/
theorem rules_progress (limit room : Nat) : RulesProgress limit room where
  expression := expression_progresses limit room
  product := product_progresses limit room
  factor := factor_progresses limit room
  atom := atom_progresses limit room
  statement := statement_progresses limit room
  body := fun expected =>
    ⟨body_gives (statement_progresses limit room) expected, Statement.body_advances _ _ _⟩
  variations := variations_progresses limit
  metadata := metadata_progresses
  series := series_progresses
  name := name_progresses

/-- Every loop that is taken where `room` levels are left leaves less with each of its turns. -/
structure LoopsShorten (limit room : Nat) : Prop where
  /-- A turn for a sum reads an operator and an operand. -/
  sums : Shortens (chainTurn limit .add .plus fun (m : Nat) (_ : m ≤ room) => product limit m)
  /-- A turn for a product reads an operator and an operand. -/
  products : Shortens (chainTurn limit .mul .star fun (m : Nat) (_ : m ≤ room) => factor limit m)
  /-- A turn for indices reads one of them with its brackets. -/
  indices : Shortens (indexTurn limit (below (expression limit) room))
  /-- A turn for elements of a tuple or a list, or for arguments, reads one of them. -/
  elements : ∀ d opened, Shortens (seriesTurn (expression limit room) d opened)
  /-- A turn for names in parentheses reads one of them. -/
  names : ∀ d opened, Shortens (seriesTurn name d opened)
  /-- A turn for names without parentheses reads a comma and a name. -/
  bareNames : Shortens namesTurn
  /-- A turn for statements in braces reads one of them. -/
  braced : ∀ opened, Shortens (itemsTurn (statement limit room) isSeparator .brace opened)
  /-- A turn for statements after a colon reads one of them. -/
  afterColon : Shortens (openTurn (statement limit room))
  /-- A turn for entries of the metadata reads one of them. -/
  entries : ∀ opened, Shortens (itemsTurn entry Metadata.isEntrySeparator .brace opened)
  /-- A turn for values of a list in the metadata reads one of them. -/
  values : ∀ d opened, Shortens (itemsTurn single Datum.isListSeparator d opened)

/-- All loops leave less with each of their turns. -/
theorem loops_shorten (limit room : Nat) : LoopsShorten limit room where
  sums := chainTurn_shortens fun m _ => (product_progresses limit m).looping_advances
  products := chainTurn_shortens fun m _ => (factor_progresses limit m).looping_advances
  indices := indexTurn_shortens fun _ => below_advances fun n _ => expression_progresses limit n
  elements := seriesTurn_shortens (expression_progresses limit room).looping_advances
  names := seriesTurn_shortens name_progresses.looping_advances
  bareNames := namesTurn_shortens
  braced := itemsTurn_shortens (statement_progresses limit room).looping_advances isSeparator .brace
  afterColon := openTurn_shortens (statement_progresses limit room).looping_advances
  entries :=
    itemsTurn_shortens entry_progresses.looping_advances Metadata.isEntrySeparator .brace
  values := itemsTurn_shortens single_progresses.looping_advances Datum.isListSeparator

end Looping

/-- Whatever the level of nesting, every rule that reads something leaves a proper part of what it
was given, and every loop leaves less with each turn after which it goes on. So the loops of a
program end on all lexemes: with the program that the lexemes spell, or with their fault. -/
theorem Program.parse_ends (limit : Nat) :
    (∀ room, Looping.RulesProgress limit room ∧ Looping.LoopsShorten limit room) ∧
      ∀ ts,
        (∃ program, parse limit ts = .ok program ∧
            Looping.program limit ts = Running.ended (.ok program)) ∨
          ∃ e, parse limit ts = .error e ∧
            Looping.program limit ts = Running.ended (.error e) := by
  refine ⟨fun room => ⟨Looping.rules_progress limit room, Looping.loops_shorten limit room⟩,
    fun ts => ?_⟩
  rw [Looping.program_eq]
  cases parse limit ts with
  | ok program => exact .inl ⟨program, rfl, rfl⟩
  | error e => exact .inr ⟨e, rfl, rfl⟩

end HandTemplate
