import HandTemplate.Expr
import HandTemplate.Rule

/-!
# Reading expressions

A sum is a chain of products, a product a chain of operands, and an operand an atom with any number
of indices in brackets. Every delimiter and every operator of a chain takes one of the levels of
nesting that are still allowed, the `room`; a rule that would need a level where none is left fails.
The rule for an expression with a given room is therefore defined from the rules with less room.
-/

namespace HandTemplate

namespace Expr

open Rule (expecting dropNewlines length_dropNewlines_le length_le_of_one length_le_of_two
  length_lt_of_dropNewlines length_lt_of_one series)

/-- The rule one level deeper, which a construct at `position` needs. -/
def oneDeeper {α : Type} (limit : Nat) (inner : Option α) (position : Position) :
    Except GrammarFault α :=
  match inner with
  | some rule => .ok rule
  | none => .error (.tooDeep limit position)

/-- What follows an opening parenthesis that calls nothing: no expression for the empty tuple, one
expression that merely stands in parentheses, or the expressions of a tuple. -/
def inParens (inner : Rule Expr) (opened : Position) : Rule Expr := fun ts =>
  match h : dropNewlines ts with
  | ⟨.mark .rightParen, _⟩ :: after =>
    .ok ⟨.tuple [] opened, after, length_lt_of_dropNewlines h⟩
  | ts' => do
    let first ← inner ts'
    have hfirst : first.rest.length < ts.length :=
      Nat.lt_of_lt_of_le first.shorter (h ▸ length_dropNewlines_le ts)
    match hnext : dropNewlines first.rest with
    | [] => .error (.unclosed .paren opened)
    | ⟨.mark .rightParen, _⟩ :: after =>
      return ⟨first.value, after, Nat.lt_trans (length_lt_of_dropNewlines hnext) hfirst⟩
    | ⟨.mark .comma, _⟩ :: after => do
      let others ← series inner .paren opened after
      return ⟨.tuple (first.value :: others.value) opened, others.rest,
        Nat.lt_trans others.shorter (Nat.lt_trans (length_lt_of_dropNewlines hnext) hfirst)⟩
    | t :: after => .error (expecting "',' or ')'" (t :: after))

/-- The rule for an expression without operators and indices. -/
def atom (limit : Nat) (inner : Option (Rule Expr)) : Rule Expr
  | ⟨.integer value, p⟩ :: ts => .ok ⟨.number value p, ts, length_lt_of_one ts⟩
  | ⟨.range first last, p⟩ :: ts => .ok ⟨.range first last p, ts, length_lt_of_one ts⟩
  | ⟨.text value, p⟩ :: ts => .ok ⟨.text value p, ts, length_lt_of_one ts⟩
  | ⟨.tile code, p⟩ :: ts => .ok ⟨.tile code p, ts, length_lt_of_one ts⟩
  | ⟨.identifier name, p⟩ :: ⟨.mark .leftParen, opened⟩ :: ts => do
    let arguments ← series (← oneDeeper limit inner opened) .paren opened ts
    return (arguments.map (.call name · p)).widen (length_le_of_two ts)
  | ⟨.identifier name, p⟩ :: ts => .ok ⟨.identifier name p, ts, length_lt_of_one ts⟩
  | ⟨.mark .leftParen, opened⟩ :: ts => do
    let group ← inParens (← oneDeeper limit inner opened) opened ts
    return group.widen (length_le_of_one ts)
  | ⟨.mark .leftBracket, opened⟩ :: ts => do
    let elements ← series (← oneDeeper limit inner opened) .bracket opened ts
    return (elements.map (.tuple · opened)).widen (length_le_of_one ts)
  | ts => .error (expecting "expression" ts)

/-- The indices that follow an expression. -/
def indices (limit : Nat) (inner : Option (Rule Expr)) (target : Expr) (ts : List Lexeme) :
    Except GrammarFault (Parsed Expr (ts.length + 1)) :=
  match ts with
  | ⟨.mark .leftBracket, opened⟩ :: ts => do
    let place ← (← oneDeeper limit inner opened) (dropNewlines ts)
    have hplace : place.rest.length < ts.length :=
      Nat.lt_of_lt_of_le place.shorter (length_dropNewlines_le ts)
    match h : dropNewlines place.rest with
    | [] => .error (.unclosed .bracket opened)
    | ⟨.mark .rightBracket, _⟩ :: after =>
      have hafter : after.length < ts.length := Nat.lt_trans (length_lt_of_dropNewlines h) hplace
      let indexed ← indices limit inner (.index target place.value opened) after
      return indexed.widen (by simp only [List.length_cons]; omega)
    | t :: after => .error (expecting "']'" (t :: after))
  | ts => .ok ⟨target, ts, length_lt_of_one ts⟩
termination_by ts.length

/-- The rule for an expression without operators. -/
def operand (limit : Nat) (inner : Option (Rule Expr)) : Rule Expr := fun ts => do
  let first ← atom limit inner ts
  let indexed ← indices limit inner first.value first.rest
  return indexed.widen (by have := first.shorter; omega)

/-- The operators that follow `left` in a chain, and their right operands. Each operator takes one
level of nesting, so the operands after it are read with less room. -/
def chainTail (limit : Nat) (operator : Operator) (mark : Mark) :
    (room : Nat) → (item : (m : Nat) → m < room → Rule Expr) → (left : Expr) → (ts : List Lexeme) →
      Except GrammarFault (Parsed Expr (ts.length + 1))
  | room, item, left, ts =>
    match ts with
    | [] => .ok ⟨left, [], Nat.lt_succ_self _⟩
    | t :: ts =>
      if t.token = .mark mark then
        match room with
        | 0 => .error (.tooDeep limit t.position)
        | room + 1 => do
          let right ← item room (Nat.lt_succ_self _) ts
          let chain ← chainTail limit operator mark room (fun m h => item m (Nat.lt_succ_of_lt h))
            (.binary operator left right.value t.position) right.rest
          return chain.widen (by have := right.shorter; simp only [List.length_cons]; omega)
      else .ok ⟨left, t :: ts, Nat.lt_succ_self _⟩

/-- The rule for operands joined by one operator, which associates to the left. -/
def chain (limit : Nat) (operator : Operator) (mark : Mark) (room : Nat)
    (item : (m : Nat) → m ≤ room → Rule Expr) : Rule Expr := fun ts => do
  let first ← item room (Nat.le_refl _) ts
  let chain ← chainTail limit operator mark room (fun m h => item m (Nat.le_of_lt h)) first.value
    first.rest
  return chain.widen (by have := first.shorter; omega)

mutual

/-- The rule for an expression that may nest `room` levels; `limit` is the room at the outermost
level, for messages. -/
def parse (limit : Nat) (room : Nat) : Rule Expr :=
  chain limit .add .plus room fun m _ => product limit m
termination_by 3 * room + 2

/-- The rule for an expression without sums. -/
def product (limit : Nat) (room : Nat) : Rule Expr :=
  chain limit .mul .star room fun m _ => factor limit m
termination_by 3 * room + 1

/-- The rule for an expression without sums and products. -/
def factor (limit : Nat) (room : Nat) : Rule Expr :=
  match room with
  | 0 => operand limit none
  | room + 1 => operand limit (some (parse limit room))
termination_by 3 * room

end

/-- The rule for what stands one level deeper than an expression that may nest `room` levels, if
there is such a level. -/
def nested (limit : Nat) : (room : Nat) → Option (Rule Expr)
  | 0 => none
  | room + 1 => some (parse limit room)

/-- An operand is read with one level less wherever it opens a delimiter. -/
theorem factor_eq (limit room : Nat) : factor limit room = operand limit (nested limit room) := by
  cases room <;> simp only [factor, nested]

end Expr

end HandTemplate
