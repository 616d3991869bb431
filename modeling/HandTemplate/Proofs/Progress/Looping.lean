import HandTemplate.Program.Parser
import HandTemplate.Proofs.Grammar.Within
import HandTemplate.Proofs.Progress.Loops

/-!
# The grammar read in loops

The rules of the grammar once more, with a loop for every repetition: the items of a list or a
series, the statements of a body, the entries of a block, the operators of a chain, the indices of
an operand and the names before a comma. Each loop collects what it has read in its state, and none
of them knows that it ends: with an item that reads nothing it would not (`items_of_idle`). Only the
levels of nesting are counted down.
-/

namespace HandTemplate

namespace Looping

open Rule (dropNewlines dropSeparators expecting isSeparator)
open Running (ended)

variable {α : Type} {room : Nat}

/-- What follows a mark, and where it stands, if it is the first of some lexemes. -/
def eat? (m : Mark) : List Lexeme → Option (Position × List Lexeme)
  | t :: ts => if t.token = .mark m then some (t.position, ts) else none
  | [] => none

/-! ## Items -/

/-- A turn of the loop for items with commas between them, up to the end of a delimiter. -/
def seriesTurn (item : Looping α) (delimiter : Delimiter) (opened : Position) (items : List α)
    (ts : List Lexeme) : Running (Turn (List α) (List α)) :=
  match dropNewlines ts with
  | [] => throw (.unclosed delimiter opened)
  | t :: after =>
    if t.token = .mark delimiter.closing then return .done items after
    else do
      let (value, rest) ← item (t :: after)
      match dropNewlines rest with
      | [] => throw (.unclosed delimiter opened)
      | u :: after' =>
        if u.token = .mark .comma then return .again (items ++ [value]) after'
        else if u.token = .mark delimiter.closing then return .done (items ++ [value]) after'
        else
          let expected := "',' or " ++ (Token.mark delimiter.closing).words
          throw (.unexpected expected u.token u.position)

/-- Items with commas between them, up to the end of a delimiter. -/
def series (item : Looping α) (delimiter : Delimiter) (opened : Position) : Looping (List α) :=
  loop (seriesTurn item delimiter opened) []

/-- A turn of the loop for items up to the end of a delimiter, with lexemes between them that only
separate them. -/
def itemsTurn (item : Looping α) (separates : Token → Bool) (delimiter : Delimiter)
    (opened : Position) (items : List α) (ts : List Lexeme) : Running (Turn (List α) (List α)) :=
  match ts.dropWhile (separates ·.token) with
  | [] => throw (.unclosed delimiter opened)
  | t :: after =>
    if t.token = .mark delimiter.closing then return .done items after
    else do
      let (value, rest) ← item (t :: after)
      return .again (items ++ [value]) rest

/-- Items up to the end of a delimiter. -/
def items (item : Looping α) (separates : Token → Bool) (delimiter : Delimiter)
    (opened : Position) : Looping (List α) :=
  loop (itemsTurn item separates delimiter opened) []

/-- Items never end where one of them reads nothing. -/
theorem items_of_idle {item : Looping α} {separates : Token → Bool} {delimiter : Delimiter}
    {t : Lexeme} {ts : List Lexeme} {value : α} (hseparates : separates t.token = false)
    (hclosing : t.token ≠ .mark delimiter.closing)
    (hidle : item (t :: ts) = ended (.ok (value, t :: ts))) (opened : Position) :
    items item separates delimiter opened (t :: ts) = none := by
  refine loop_endless (P := fun _ us => us = t :: ts) ?_ rfl
  rintro values _ rfl
  refine ⟨values ++ [value], t :: ts, ?_, rfl⟩
  unfold itemsTurn
  rw [List.dropWhile_cons_of_neg (by simp [hseparates])]
  dsimp only
  rw [if_neg hclosing, hidle]
  rfl

/-! ## Expressions -/

/-- What follows an opening parenthesis that calls nothing. -/
def inParens (inner : Looping Expr) (opened : Position) : Looping Expr := fun ts =>
  match eat? .rightParen (dropNewlines ts) with
  | some (_, after) => return (.tuple [] opened, after)
  | none => do
    let (first, rest) ← inner (dropNewlines ts)
    match dropNewlines rest with
    | [] => throw (.unclosed .paren opened)
    | t :: after =>
      if t.token = .mark .rightParen then return (first, after)
      else if t.token = .mark .comma then do
        let (others, rest) ← series inner .paren opened after
        return (.tuple (first :: others) opened, rest)
      else throw (expecting "',' or ')'" (t :: after))

/-- An expression without operators and indices. -/
def atom (limit : Nat) (inner : Option (Looping Expr)) : Looping Expr
  | ⟨.integer value, p⟩ :: ts => return (.number value p, ts)
  | ⟨.range first last, p⟩ :: ts => return (.range first last p, ts)
  | ⟨.text value, p⟩ :: ts => return (.text value p, ts)
  | ⟨.tile code, p⟩ :: ts => return (.tile code p, ts)
  | ⟨.identifier name, p⟩ :: ts =>
    match eat? .leftParen ts with
    | some (opened, after) => do
      let rule ← ended (Expr.oneDeeper limit inner opened)
      let (arguments, rest) ← series rule .paren opened after
      return (.call name arguments p, rest)
    | none => return (.identifier name p, ts)
  | ⟨.mark .leftParen, opened⟩ :: ts => do
    let rule ← ended (Expr.oneDeeper limit inner opened)
    inParens rule opened ts
  | ⟨.mark .leftBracket, opened⟩ :: ts => do
    let rule ← ended (Expr.oneDeeper limit inner opened)
    let (elements, rest) ← series rule .bracket opened ts
    return (.tuple elements opened, rest)
  | ts => throw (expecting "expression" ts)

/-- A turn of the loop for the indices that follow an expression. -/
def indexTurn (limit : Nat) (inner : Option (Looping Expr)) (target : Expr) (ts : List Lexeme) :
    Running (Turn Expr Expr) :=
  match eat? .leftBracket ts with
  | none => return .done target ts
  | some (opened, after) => do
    let rule ← ended (Expr.oneDeeper limit inner opened)
    let (place, rest) ← rule (dropNewlines after)
    match dropNewlines rest with
    | [] => throw (.unclosed .bracket opened)
    | t :: after' =>
      if t.token = .mark .rightBracket then return .again (.index target place opened) after'
      else throw (expecting "']'" (t :: after'))

/-- An expression without operators. -/
def operand (limit : Nat) (inner : Option (Looping Expr)) : Looping Expr := fun ts => do
  let (first, rest) ← atom limit inner ts
  loop (indexTurn limit inner) first rest

/-- A turn of the loop for the operators of a chain. Its state is what stands to the left, and the
room that is left of the room at the beginning. -/
def chainTurn (limit : Nat) (operator : Operator) (mark : Mark)
    (item : (m : Nat) → m ≤ room → Looping Expr) (state : Expr × { m // m ≤ room })
    (ts : List Lexeme) : Running (Turn (Expr × { m // m ≤ room }) Expr) :=
  match eat? mark ts with
  | none => return .done state.1 ts
  | some (p, after) =>
    match state.2 with
    | ⟨0, _⟩ => throw (.tooDeep limit p)
    | ⟨m + 1, h⟩ => do
      let (right, rest) ← item m (Nat.le_of_succ_le h) after
      return .again (.binary operator state.1 right p, ⟨m, Nat.le_of_succ_le h⟩) rest

/-- Operands joined by one operator. -/
def chain (limit : Nat) (operator : Operator) (mark : Mark) (room : Nat)
    (item : (m : Nat) → m ≤ room → Looping Expr) : Looping Expr := fun ts => do
  let (first, rest) ← item room (Nat.le_refl _) ts
  loop (chainTurn limit operator mark item) (first, ⟨room, Nat.le_refl _⟩) rest

mutual

/-- An expression that may nest `room` levels. -/
def expression (limit : Nat) (room : Nat) : Looping Expr :=
  chain limit .add .plus room fun m _ => product limit m
termination_by 3 * room + 2

/-- An expression without sums. -/
def product (limit : Nat) (room : Nat) : Looping Expr :=
  chain limit .mul .star room fun m _ => factor limit m
termination_by 3 * room + 1

/-- An expression without sums and products. -/
def factor (limit : Nat) (room : Nat) : Looping Expr :=
  match room with
  | 0 => operand limit none
  | room + 1 => operand limit (some (expression limit room))
termination_by 3 * room

end

/-! ## Statements -/

/-- One name. -/
def name : Looping String := fun ts => ended (Rule.name.run ts)

/-- A turn of the loop for names with commas between them, after one name. -/
def namesTurn (names : List String) (ts : List Lexeme) :
    Running (Turn (List String) (List String)) :=
  match eat? .comma ts with
  | none => return .done names ts
  | some (_, after) => do
    let (other, rest) ← name after
    return .again (names ++ [other]) rest

/-- One name or several names with commas between them. -/
def nameList : Looping (List String) := fun ts => do
  let (first, rest) ← name ts
  loop namesTurn [first] rest

/-- The equals sign and the value of an assignment. -/
def assigned (expression : Looping Expr) (target : Binding) (position : Position) :
    Looping Statement := fun ts =>
  match eat? .equals ts with
  | some (_, after) => do
    let (value, rest) ← expression after
    return (.assign target value position, rest)
  | none => throw (expecting "'='" ts)

/-- The binding of a loop, and where the parenthesis around its header was opened, if one was. -/
def loopHead : Looping (Binding × Option Position) := fun ts =>
  match eat? .leftParen ts with
  | none => do
    let (names, rest) ← nameList ts
    match names with
    | [name] => return ((.name name, none), rest)
    | several => return ((.tuple several, none), rest)
  | some (opened, ts) =>
    match eat? .leftParen ts with
    | some (inner, ts) => do
      let (names, rest) ← series name .paren inner ts
      return ((.tuple names, some opened), rest)
    | none => do
      let (names, rest) ← nameList ts
      match names with
      | [name] => return ((.name name, some opened), rest)
      | several =>
        match rest with
        | [] => throw (.unclosed .paren opened)
        | t :: after =>
          if t.token = .mark .rightParen then return ((.tuple several, none), after)
          else throw (expecting "',' or ')'" (t :: after))

/-- The statements up to the closing brace. -/
def bracedStatements (statement : Looping Statement) (opened : Position) :
    Looping (List Statement) :=
  items statement isSeparator .brace opened

/-- A turn of the loop for the statements after a colon. -/
def openTurn (statement : Looping Statement) (statements : List Statement) (ts : List Lexeme) :
    Running (Turn (List Statement) (List Statement)) :=
  match dropSeparators ts with
  | [] => return .done statements []
  | t :: after =>
    if t.token = .keyword .ending then
      match eat? .colon after with
      | some (_, after) => return .done statements after
      | none => return .done statements after
    else if t.token = .mark .rightBrace then return .done statements (t :: after)
    else do
      let (value, rest) ← statement (t :: after)
      return .again (statements ++ [value]) rest

/-- The statements after a colon. -/
def openStatements (statement : Looping Statement) : Looping (List Statement) :=
  loop (openTurn statement) []

/-- A body between braces or after a colon. -/
def body (statement : Looping Statement) (expected : String) : Looping (List Statement) := fun ts =>
  match eat? .leftBrace (dropNewlines ts) with
  | some (opened, after) => bracedStatements statement opened after
  | none =>
    match eat? .colon ts with
    | none => throw (expecting expected ts)
    | some (_, ts) =>
      match eat? .leftBrace (dropNewlines ts) with
      | some (opened, after) => bracedStatements statement opened after
      | none => openStatements statement ts

/-- A loop after its keyword. -/
def foreach (expression : Looping Expr) (statement : Looping Statement) (position : Position) :
    Looping Statement := fun ts => do
  let (binding, rest) ← loopHead ts
  let (_, rest) ← ended (Rule.pair (Statement.within rest))
  let (source, rest) ← expression rest
  let (_, rest) ← ended (Rule.pair (Statement.headerEnd binding.2 rest))
  let (statements, rest) ← body statement "'\x7b' or ':' after foreach header" rest
  return (.foreach binding.1 source statements position, rest)

/-- A statement whose expressions are read by `expression`. -/
def form (limit : Nat) (expression : Looping Expr) (argument : Option (Looping Expr))
    (inner : Option (Looping Statement)) : Looping Statement
  | ⟨.keyword .foreach, p⟩ :: ts => do
    let statement ← ended (Expr.oneDeeper limit inner p)
    foreach expression statement p ts
  | ⟨.mark .leftParen, p⟩ :: ts => do
    let (names, rest) ← series name .paren p ts
    assigned expression (.tuple names) p rest
  | ⟨.identifier name, p⟩ :: ⟨.mark .equals, q⟩ :: ts =>
    assigned expression (.name name) p (⟨.mark .equals, q⟩ :: ts)
  | ⟨.identifier name, p⟩ :: ⟨.mark .comma, q⟩ :: ts => do
    let (names, rest) ← nameList (⟨.identifier name, p⟩ :: ⟨.mark .comma, q⟩ :: ts)
    assigned expression (.tuple names) p rest
  | ⟨.identifier name, p⟩ :: ⟨.mark .leftParen, opened⟩ :: ts => do
    let rule ← ended (Expr.oneDeeper limit argument opened)
    let (arguments, rest) ← series rule .paren opened ts
    return (.call name arguments p, rest)
  | ⟨.identifier _, _⟩ :: ts => throw (expecting "'=', ',' or '(' after identifier" ts)
  | t :: _ => throw (.noStatement t.token t.position)
  | [] => throw (.endOfText "statement")

/-- A statement that may nest `room` levels. -/
def statement (limit : Nat) : (room : Nat) → Looping Statement
  | 0 => form limit (expression limit 0) none none
  | room + 1 =>
    form limit (expression limit (room + 1)) (some (expression limit room))
      (some (statement limit room))

/-! ## Blocks -/

/-- One value that is no list. -/
def single : Looping Datum := fun ts => ended (Datum.single.run ts)

/-- The values up to the end of a list. -/
def listItems (delimiter : Delimiter) (opened : Position) : Looping (List Datum) :=
  items single Datum.isListSeparator delimiter opened

/-- A value of the metadata block. -/
def datum : Looping Datum
  | ⟨.mark .leftParen, opened⟩ :: ts => do
    let (values, rest) ← listItems .paren opened ts
    return (.list values, rest)
  | ⟨.mark .leftBracket, opened⟩ :: ts => do
    let (values, rest) ← listItems .bracket opened ts
    return (.list values, rest)
  | ts => single ts

/-- An entry of the metadata block. -/
def entry : Looping (String × Datum) := fun ts => do
  let (name, rest) ← ended (Metadata.key.run ts)
  let (value, rest) ← datum (Metadata.dropAssignment rest)
  return ((name, value), rest)

/-- The metadata block. -/
def metadata : Looping Metadata
  | ⟨.keyword .metadata, _⟩ :: ts =>
    match eat? .leftBrace (dropNewlines (Metadata.dropAssignment ts)) with
    | some (opened, after) => do
      let (stored, rest) ← items entry Metadata.isEntrySeparator .brace opened after
      return (Record.ofList stored, rest)
    | none =>
      throw (expecting "'\x7b' after 'metadata'" (dropNewlines (Metadata.dropAssignment ts)))
  | t :: _ => throw (.noMetadata t.token t.position)
  | [] => throw (.endOfText "'metadata' block")

/-- The variations block. -/
def variations (limit : Nat) : Looping (List Statement)
  | ⟨.keyword .variations, _⟩ :: ts =>
    match eat? .equals ts with
    | some (_, ts) => body (statement limit limit) Program.expectedBody ts
    | none => body (statement limit limit) Program.expectedBody ts
  | t :: _ => throw (.noVariations t.token t.position)
  | [] => throw (.endOfText "'variations' block")

/-- The program that some lexemes spell, where nesting goes no deeper than `limit`. -/
def program (limit : Nat) (ts : List Lexeme) : Running Program := do
  let (metadata, rest) ← metadata (dropSeparators ts)
  let (body, rest) ← variations limit (dropSeparators rest)
  match dropSeparators rest with
  | [] => return ⟨metadata, body⟩
  | t :: _ => throw (.trailing t.token t.position)

end Looping

end HandTemplate
