import HandTemplate.Proofs.Progress.Turns

/-!
# Loops end

A loop has collected some values when it comes to a lexeme, and the rule for what is left knows
nothing of these: the loop gives its values before those of the rule (`behind`). That is what each
loop for items gives, at whichever turn, and it gives nothing else since its turns leave less and
less. From the loops the same follows for the rules that are made of them, up to whole expressions
(`expression_progresses`).
-/

namespace HandTemplate

namespace Looping

open Grammar (mark_or_not below)
open Rule (dropNewlines run pair)
open Running (ended bind_ended)

variable {α β : Type} {limit room : Nat}

/-- A rule made of loops ends on all lexemes, and gives what a rule gives. -/
def Gives (reading : Looping α) (rule : Rule α) : Prop := ∀ ts, reading ts = ended (rule.run ts)

/-- A rule made of loops ends on all lexemes, and gives what a rule gives that leaves a proper part
of what it was given. -/
structure Progresses (reading : Looping α) (rule : Rule α) : Prop where
  /-- It ends with what the rule gives. -/
  gives : reading.Gives rule
  /-- The rule leaves a proper part. -/
  advances : rule.Advances

/-- A rule made of loops that gives what a rule gives leaves a proper part, too. -/
theorem Progresses.looping_advances {reading : Looping α} {rule : Rule α}
    (h : reading.Progresses rule) : reading.Advances := by
  intro ts value rest hreading
  rw [h.gives, Running.ended_inj] at hreading
  exact h.advances hreading

/-- What is read one level deeper is what a rule one level deeper reads. -/
theorem deeper_ended {γ δ : Type} {reading : Nat → γ} {rule : Nat → δ} {next : γ → Running α}
    {f : δ → Except GrammarFault α} (p : Position)
    (h : ∀ n < room, next (reading n) = ended (f (rule n))) :
    (ended (Expr.oneDeeper limit (below reading room) p) >>= next) =
      ended (Expr.oneDeeper limit (below rule room) p >>= f) := by
  cases room with
  | zero => rfl
  | succ n => exact h n (Nat.lt_succ_self n)

/-! ## Items -/

/-- What is read after some values that were read before. -/
def behind (values : List α) (r : Except GrammarFault (List α × List Lexeme)) :
    Except GrammarFault (List α × List Lexeme) :=
  r >>= fun others => .ok (values ++ others.1, others.2)

/-- Nothing was read before. -/
theorem behind_nil (r : Except GrammarFault (List α × List Lexeme)) : behind [] r = r := by
  cases r <;> rfl

/-- Nothing is read behind the values. -/
theorem behind_none (values : List α) (rest : List Lexeme) :
    behind values (.ok ([], rest)) = .ok (values, rest) := by
  show Except.ok (values ++ [], rest) = _
  rw [List.append_nil]

/-- What is read in two steps behind some values is behind them with its second step. -/
theorem behind_bind (values : List α) (r : Except GrammarFault β)
    (next : β → Except GrammarFault (List α × List Lexeme)) :
    behind values (r >>= next) = r >>= fun b => behind values (next b) := by
  cases r <;> rfl

/-- One more value was read before the others. -/
theorem behind_one (values : List α) (value : α)
    (r : Except GrammarFault (List α × List Lexeme)) :
    behind values (r >>= fun others => .ok (value :: others.1, others.2)) =
      behind (values ++ [value]) r := by
  cases r with
  | error e => rfl
  | ok others =>
    show Except.ok (values ++ value :: others.1, others.2) = _
    rw [List.append_cons]
    rfl

/-- The loop for items ends, and gives what the rule for a series gives. -/
theorem series_gives {item : Looping α} {rule : Rule α} (hitem : item.Progresses rule)
    (d : Delimiter) (opened : Position) :
    Gives (series item d opened) (Rule.series rule d opened) := by
  -- The loop carries the items read so far, and the rule has those that are still to be read behind
  -- them.
  have hloop : ∀ values ts, loop (seriesTurn item d opened) values ts =
      ended (behind values (run (Rule.series rule d opened) ts)) := by
    refine loop_eq (seriesTurn_shortens hitem.looping_advances d opened) fun values ts => ?_
    unfold seriesTurn
    rw [Rule.series_run]
    cases dropNewlines ts with
    | nil => rfl
    | cons t after =>
      dsimp only
      split
      · rw [behind_none]
        rfl
      rw [bind_assoc, behind_bind]
      refine bind_ended (hitem.gives _) fun ⟨value, left⟩ _ => ?_
      dsimp only
      cases dropNewlines left with
      | nil => rfl
      | cons u after' =>
        dsimp only
        split
        · exact congrArg ended (behind_one values value _).symm
        split <;> rfl
  intro ts
  rw [series, hloop, behind_nil]

/-- The loop for items ends, and leaves a proper part of what it was given. -/
theorem series_progresses {item : Looping α} {rule : Rule α} (hitem : item.Progresses rule)
    (d : Delimiter) (opened : Position) :
    Progresses (series item d opened) (Rule.series rule d opened) :=
  ⟨series_gives hitem d opened, Rule.series_advances hitem.advances d opened⟩

/-- Items up to the end of a delimiter are what satisfies their equation. -/
theorem items_eq {item : Looping α} {rule : Rule α} (hitem : item.Progresses rule)
    {separates : Token → Bool} {d : Delimiter} {opened : Position}
    {read : List Lexeme → Except GrammarFault (List α × List Lexeme)}
    (hread : ∀ ts, read ts =
      match ts.dropWhile (separates ·.token) with
      | [] => .error (.unclosed d opened)
      | t :: after =>
        if t.token = .mark d.closing then .ok ([], after)
        else rule.run (t :: after) >>= fun first =>
          read first.2 >>= fun others => .ok (first.1 :: others.1, others.2)) (ts : List Lexeme) :
    items item separates d opened ts = ended (read ts) := by
  -- As for series, the state of the loop is in front of what the rule reads.
  have hloop : ∀ values ts, loop (itemsTurn item separates d opened) values ts =
      ended (behind values (read ts)) := by
    refine loop_eq (itemsTurn_shortens hitem.looping_advances separates d opened)
      fun values ts => ?_
    unfold itemsTurn
    rw [hread]
    cases ts.dropWhile (separates ·.token) with
    | nil => rfl
    | cons t after =>
      dsimp only
      split
      · rw [behind_none]
        rfl
      rw [bind_assoc, behind_bind]
      refine bind_ended (hitem.gives _) fun ⟨value, left⟩ _ => ?_
      exact congrArg ended (behind_one values value _).symm
  rw [items, hloop, behind_nil]

/-! ## Expressions -/

/-- What follows an opening parenthesis is read to its end if what stands in it is. -/
theorem inParens_gives {reading : Looping Expr} {rule : Rule Expr}
    (hreading : reading.Progresses rule) (opened : Position) :
    Gives (inParens reading opened) (Expr.inParens rule opened) := by
  intro ts
  unfold inParens
  -- The closing mark at once, or an expression first.
  rcases mark_or_not .rightParen (dropNewlines ts) with ⟨c, after, heq⟩ | hhead
  · rw [Expr.inParens_closed _ _ heq, heq, eat?_mark]
    rfl
  rw [Expr.inParens_run _ _ (Grammar.ne_mark_cons hhead), eat?_eq_none hhead]
  refine bind_ended (hreading.gives _) fun ⟨first, left⟩ _ => ?_
  dsimp only
  cases dropNewlines left with
  | nil => rfl
  | cons t after =>
    dsimp only
    split
    · rfl
    split
    · exact bind_ended (series_gives hreading .paren opened after) fun others _ => rfl
    · rfl

section
variable {reading : Nat → Looping Expr} {rule : Nat → Rule Expr}
  (hreading : ∀ n < room, (reading n).Progresses (rule n))
include hreading

/-- Atoms are read to their end if expressions one level deeper are. -/
theorem atom_gives :
    Gives (atom limit (below reading room)) (Expr.atom limit (below rule room)) := by
  intro ts
  rcases ts with _ | ⟨⟨token, p⟩, ts⟩
  · rfl
  -- The first token decides, and after a name the second one.
  cases token with
  | identifier name =>
    rcases mark_or_not .leftParen ts with ⟨opened, after, rfl⟩ | hhead
    · rw [Expr.atom_call, atom, eat?_mark]
      exact deeper_ended opened fun n hn => bind_ended
        (series_gives (hreading n hn) .paren opened after) fun arguments _ => rfl
    · rw [Expr.atom_identifier _ _ _ hhead, atom, eat?_eq_none hhead]
      rfl
  | mark m =>
    cases m with
    | leftParen =>
      rw [Expr.atom_paren, atom]
      exact deeper_ended p fun n hn => inParens_gives (hreading n hn) p ts
    | leftBracket =>
      rw [Expr.atom_bracket, atom]
      exact deeper_ended p fun n hn => bind_ended
        (series_gives (hreading n hn) .bracket p ts) fun elements _ => rfl
    | _ => rfl
  | _ => rfl

/-- What is read one level deeper leaves a proper part of what it was given. -/
theorem below_advances {inner : Looping Expr} (h : below reading room = some inner) :
    inner.Advances := by
  cases room with
  | zero => cases h
  | succ n =>
    cases h
    exact (hreading n (Nat.lt_succ_self n)).looping_advances

/-- The loop for indices ends, and puts them behind the operand that it has so far. -/
theorem indices_eq (target : Expr) (ts : List Lexeme) :
    loop (indexTurn limit (below reading room)) target ts =
      ended (pair (Expr.indices limit (below rule room) target ts)) := by
  refine loop_eq (indexTurn_shortens fun _ => below_advances hreading)
    (f := fun target ts => pair (Expr.indices limit (below rule room) target ts))
    (fun target ts => ?_) target ts
  -- One turn either reads an index, or ends the operand where no bracket stands.
  unfold indexTurn
  rcases mark_or_not .leftBracket ts with ⟨opened, after, rfl⟩ | hhead
  · rw [Expr.indices_more, eat?_mark, bind_assoc, bind_assoc]
    refine deeper_ended opened fun n hn => ?_
    rw [bind_assoc]
    refine bind_ended ((hreading n hn).gives _) fun ⟨place, left⟩ _ => ?_
    dsimp only
    cases dropNewlines left with
    | nil => rfl
    | cons t after' =>
      dsimp only
      split <;> rfl
  · rw [Expr.indices_done _ _ hhead, eat?_eq_none hhead]
    rfl

/-- Operands are read to their end if expressions one level deeper are. -/
theorem operand_gives :
    Gives (operand limit (below reading room)) (Expr.operand limit (below rule room)) := by
  intro ts
  rw [Expr.operand_run]
  exact bind_ended (atom_gives hreading ts) fun first _ =>
    indices_eq hreading first.1 first.2

end

section
variable {operator : Operator} {mark : Mark} {reading : (m : Nat) → m ≤ room → Looping Expr}
  {rule : (m : Nat) → m ≤ room → Rule Expr}
  (hreading : ∀ m h, (reading m h).Progresses (rule m h))
include hreading

/-- The loop for a chain ends, and puts what is left of the chain behind its left side. -/
theorem chainTail_eq (left : Expr) (m : Nat) (hm : m ≤ room) (ts : List Lexeme) :
    loop (chainTurn limit operator mark reading) (left, ⟨m, hm⟩) ts =
      ended (pair (Expr.chainTail limit operator mark m
        (fun k hk => rule k (Nat.le_trans (Nat.le_of_lt hk) hm)) left ts)) := by
  -- The room that is left belongs to the state, since every operator takes a level of it.
  refine loop_eq (chainTurn_shortens fun m h => (hreading m h).looping_advances)
    (f := fun (state : Expr × { m // m ≤ room }) ts => pair (Expr.chainTail limit operator mark
      state.2.1 (fun k hk => rule k (Nat.le_trans (Nat.le_of_lt hk) state.2.2)) state.1 ts))
    (fun ⟨left, m, hm⟩ ts => ?_) (left, ⟨m, hm⟩) ts
  unfold chainTurn
  rcases mark_or_not mark ts with ⟨p, after, rfl⟩ | hhead
  · rw [eat?_mark]
    cases m with
    | zero =>
      rw [Expr.chainTail_zero]
      rfl
    | succ m =>
      rw [Expr.chainTail_succ, bind_assoc]
      exact bind_ended ((hreading _ _).gives _) fun right _ => rfl
  · rw [Expr.chainTail_done _ _ hhead, eat?_eq_none hhead]
    rfl

/-- Chains are read to their end if their operands are at all lower levels. -/
theorem chain_gives : Gives (chain limit operator mark room reading)
    (Expr.chain limit operator mark room rule) := by
  intro ts
  rw [Expr.chain_run]
  exact bind_ended ((hreading _ _).gives ts) fun first _ =>
    chainTail_eq hreading first.1 room (Nat.le_refl _) first.2

end

/-- A factor is an operand whose parts are expressions one level deeper. -/
theorem factor_eq (limit room : Nat) :
    factor limit room = operand limit (below (expression limit) room) := by
  cases room <;> simp only [factor, below]

/-- Factors are read to their end if expressions at lower levels are. -/
theorem factor_gives (h : ∀ n < room, (expression limit n).Progresses (Expr.parse limit n)) :
    (factor limit room).Gives (Expr.factor limit room) := by
  rw [factor_eq, Expr.factor_eq, Expr.nested_eq]
  exact operand_gives h

/-- Products are read to their end if expressions at lower levels are. -/
theorem product_gives (h : ∀ n < room, (expression limit n).Progresses (Expr.parse limit n)) :
    (product limit room).Gives (Expr.product limit room) := by
  unfold product Expr.product
  exact chain_gives fun m hm => ⟨factor_gives fun n hn => h n (by omega), Expr.factor_advances _ _⟩

/-- Expressions are read to their ends. -/
theorem expression_progresses (limit room : Nat) :
    (expression limit room).Progresses (Expr.parse limit room) := by
  -- By induction on the room: what stands between delimiters is read one level deeper.
  induction room using Nat.strongRecOn with
  | ind room ih =>
  refine ⟨?_, Expr.parse_advances limit room⟩
  unfold expression Expr.parse
  exact chain_gives fun m hm =>
    ⟨product_gives fun n hn => ih n (by omega), Expr.product_advances _ _⟩

/-- Products are read to their end, and leave a proper part. -/
theorem product_progresses (limit room : Nat) :
    (product limit room).Progresses (Expr.product limit room) :=
  ⟨product_gives fun n _ => expression_progresses limit n, Expr.product_advances limit room⟩

/-- Factors are read to their end, and leave a proper part. -/
theorem factor_progresses (limit room : Nat) :
    (factor limit room).Progresses (Expr.factor limit room) :=
  ⟨factor_gives fun n _ => expression_progresses limit n, Expr.factor_advances limit room⟩

/-- Atoms are read to their end, and leave a proper part. -/
theorem atom_progresses (limit room : Nat) : Progresses
    (atom limit (below (expression limit) room)) (Expr.atom limit (Expr.nested limit room)) := by
  refine ⟨?_, Expr.atom_advances limit room⟩
  rw [Expr.nested_eq]
  exact atom_gives fun n _ => expression_progresses limit n

end Looping

end HandTemplate
