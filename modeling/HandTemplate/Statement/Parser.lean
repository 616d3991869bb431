import HandTemplate.Expr.Parser
import HandTemplate.Statement

/-!
# Reading statements

A body is written between braces, or after a colon up to `End`; a body after a colon may also stay
open at the end of the enclosing braces or of the text. The first token tells what a statement is,
and for a name the second one does. A loop takes one level of nesting for its body.
-/

namespace HandTemplate

namespace Statement

open Rule (expecting dropNewlines dropSeparators length_le_of_one length_le_of_two
  length_lt_of_dropNewlines length_lt_of_dropSeparators length_lt_of_one series)

/-- The rule for one name or several names with commas between them. -/
def nameList (ts : List Lexeme) : Except GrammarFault (Parsed (List String) ts.length) := do
  let first ← Rule.name ts
  match h : first.rest with
  | ⟨.mark .comma, _⟩ :: after =>
    have hafter : after.length < ts.length := Parsed.length_lt_of_rest h
    let others ← nameList after
    return ⟨first.value :: others.value, others.rest, Nat.lt_trans others.shorter hafter⟩
  | _ => return ⟨[first.value], first.rest, first.shorter⟩
termination_by ts.length

/-- The rule for the equals sign and the value of an assignment. -/
def assigned (expression : Rule Expr) (target : Binding) (position : Position) : Rule Statement
  | ⟨.mark .equals, _⟩ :: ts => do
    let value ← expression ts
    return (value.map (.assign target · position)).widen (length_le_of_one ts)
  | ts => .error (expecting "'='" ts)

/-- The binding of a loop, and where the parenthesis around the whole header was opened, if one was.
-/
def loopHead : Rule (Binding × Option Position)
  | ⟨.mark .leftParen, opened⟩ :: ⟨.mark .leftParen, inner⟩ :: ts => do
    let names ← series Rule.name .paren inner ts
    return (names.map (.tuple ·, some opened)).widen (length_le_of_two ts)
  | ⟨.mark .leftParen, opened⟩ :: ts => do
    let names ← nameList ts
    match names.value with
    | [name] =>
      return ⟨(.name name, some opened), names.rest, Nat.lt_succ_of_lt names.shorter⟩
    | several =>
      match h : names.rest with
      | ⟨.mark .rightParen, _⟩ :: after =>
        return ⟨(.tuple several, none), after, Nat.lt_succ_of_lt (Parsed.length_lt_of_rest h)⟩
      | [] => .error (.unclosed .paren opened)
      | t :: after => .error (expecting "',' or ')'" (t :: after))
  | ts => do
    let names ← nameList ts
    match names.value with
    | [name] => return names.map fun _ => (.name name, none)
    | several => return names.map fun _ => (.tuple several, none)

/-- The word between the binding and the source of a loop. -/
def within : (ts : List Lexeme) → Except GrammarFault (Parsed Unit ts.length)
  | ⟨.keyword .within, _⟩ :: ts => .ok ⟨(), ts, length_lt_of_one ts⟩
  | t :: _ => .error (.noIn t.token t.position)
  | [] => .error (.endOfText "'in'")

/-- The end of a header that was opened at `opened`, or nothing. -/
def headerEnd (opened : Option Position) (ts : List Lexeme) :
    Except GrammarFault (Parsed Unit (ts.length + 1)) :=
  match opened, ts with
  | none, ts => .ok ⟨(), ts, length_lt_of_one ts⟩
  | some _, ⟨.mark .rightParen, _⟩ :: after =>
    .ok ⟨(), after, Nat.lt_succ_of_lt (Nat.lt_succ_self _)⟩
  | some opened, [] => .error (.unclosed .paren opened)
  | some _, ts => .error (expecting "')' closing the foreach header" ts)

/-- The statements up to the closing brace, after the opening one at `opened`. -/
def bracedStatements (statement : Rule Statement) (opened : Position) (ts : List Lexeme) :
    Except GrammarFault (Parsed (List Statement) ts.length) :=
  match h : dropSeparators ts with
  | [] => .error (.unclosed .brace opened)
  | t :: after =>
    if t.token = .mark .rightBrace then .ok ⟨[], after, length_lt_of_dropSeparators h⟩
    else do
      let first ← statement (t :: after)
      have hfirst : first.rest.length < ts.length :=
        Nat.lt_of_lt_of_le first.shorter (length_lt_of_dropSeparators h)
      let others ← bracedStatements statement opened first.rest
      return ⟨first.value :: others.value, others.rest, Nat.lt_trans others.shorter hfirst⟩
termination_by ts.length

/-- The statements after a colon, up to `End` and a colon that may follow it. The end of the
enclosing braces or of the text ends them too, and is left in place. -/
def openStatements (statement : Rule Statement) (ts : List Lexeme) :
    Except GrammarFault (Parsed (List Statement) (ts.length + 1)) :=
  match h : dropSeparators ts with
  | [] => .ok ⟨[], [], Nat.succ_pos _⟩
  | t :: after =>
    have hafter : after.length < ts.length := length_lt_of_dropSeparators h
    if t.token = .keyword .ending then
      match after with
      | ⟨.mark .colon, _⟩ :: after =>
        .ok ⟨[], after, Nat.lt_succ_of_lt (Nat.lt_trans (Nat.lt_succ_self _) hafter)⟩
      | after => .ok ⟨[], after, Nat.lt_succ_of_lt hafter⟩
    else if t.token = .mark .rightBrace then
      .ok ⟨[], t :: after, Nat.succ_lt_succ hafter⟩
    else do
      let first ← statement (t :: after)
      have hfirst : first.rest.length < ts.length := Nat.lt_of_lt_of_le first.shorter hafter
      let others ← openStatements statement first.rest
      return ⟨first.value :: others.value, others.rest, by
        have := others.shorter
        omega⟩
termination_by ts.length

/-- The rule for a body; `expected` says in a message what stands in its place. A colon right before
the opening brace changes nothing. -/
def body (statement : Rule Statement) (expected : String) : Rule (List Statement) := fun ts =>
  match h : dropNewlines ts with
  | ⟨.mark .leftBrace, opened⟩ :: after => do
    let statements ← bracedStatements statement opened after
    return statements.widen (Nat.le_of_lt (length_lt_of_dropNewlines h))
  | _ =>
    match ts with
    | ⟨.mark .colon, _⟩ :: ts =>
      match h : dropNewlines ts with
      | ⟨.mark .leftBrace, opened⟩ :: after => do
        let statements ← bracedStatements statement opened after
        return statements.widen (Nat.le_of_lt (Nat.lt_succ_of_lt (length_lt_of_dropNewlines h)))
      | _ => openStatements statement ts
    | ts => .error (expecting expected ts)

/-- The rule for a loop after its keyword, which stands at `position`. -/
def loop (expression : Rule Expr) (statement : Rule Statement) (position : Position) :
    Rule Statement := fun ts => do
  let binding ← loopHead ts
  let between ← within binding.rest
  let source ← expression between.rest
  let header ← headerEnd binding.value.2 source.rest
  let statements ← body statement "'\x7b' or ':' after foreach header" header.rest
  return ⟨.foreach binding.value.1 source.value statements.value position, statements.rest, by
    have := binding.shorter
    have := between.shorter
    have := source.shorter
    have := header.shorter
    have := statements.shorter
    omega⟩

/-- The rule for a statement whose expressions are read by `expression`. The arguments of a call and
the body of a loop are one level deeper. -/
def form (limit : Nat) (expression : Rule Expr) (argument : Option (Rule Expr))
    (inner : Option (Rule Statement)) : Rule Statement
  | ⟨.keyword .foreach, p⟩ :: ts => do
    let statement ← loop expression (← Expr.oneDeeper limit inner p) p ts
    return statement.widen (length_le_of_one ts)
  | ⟨.mark .leftParen, p⟩ :: ts => do
    let names ← series Rule.name .paren p ts
    let statement ← assigned expression (.tuple names.value) p names.rest
    return statement.widen (by have := names.shorter; simp only [List.length_cons]; omega)
  | ⟨.identifier name, p⟩ :: ⟨.mark .equals, q⟩ :: ts => do
    let statement ← assigned expression (.name name) p (⟨.mark .equals, q⟩ :: ts)
    return statement.widen (Nat.le_succ _)
  | ⟨.identifier name, p⟩ :: ⟨.mark .comma, q⟩ :: ts => do
    let names ← nameList (⟨.identifier name, p⟩ :: ⟨.mark .comma, q⟩ :: ts)
    let statement ← assigned expression (.tuple names.value) p names.rest
    return statement.widen (Nat.le_of_lt names.shorter)
  | ⟨.identifier name, p⟩ :: ⟨.mark .leftParen, opened⟩ :: ts => do
    let arguments ← series (← Expr.oneDeeper limit argument opened) .paren opened ts
    return (arguments.map (.call name · p)).widen (length_le_of_two ts)
  | ⟨.identifier _, _⟩ :: ts => .error (expecting "'=', ',' or '(' after identifier" ts)
  | t :: _ => .error (.noStatement t.token t.position)
  | [] => .error (.endOfText "statement")

/-- The rule for a statement that may nest `room` levels; `limit` is the room at the outermost
level, for messages. -/
def parse (limit : Nat) : (room : Nat) → Rule Statement
  | 0 => form limit (Expr.parse limit 0) none none
  | room + 1 =>
    form limit (Expr.parse limit (room + 1)) (some (Expr.parse limit room))
      (some (parse limit room))

end Statement

end HandTemplate
