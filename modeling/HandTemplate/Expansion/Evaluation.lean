import HandTemplate.Expansion

/-!
# Values of expressions

An expression is evaluated from left to right. A tuple, a call, an index and an operation each take
a level of depth while they are evaluated. A name that is bound to nothing can stand for itself only
as an element of a tuple or as an argument of some builtins.
-/

namespace HandTemplate

namespace Expansion

/-- The value of a name. -/
def nameValue (name : String) (position : Position) (fallback : Fallback) : Step Value := do
  let m ← get
  match m.valueOf? name with
  | some value => return value
  | none =>
    if fallback = .symbol && m.config.symbolAtoms then return .symbol name
    else throw ⟨.unboundName name, position⟩

/-- The builtin that a called name is bound to. -/
def callee (name : String) (position : Position) : Step Builtin := do
  match (← get).valueOf? name with
  | some (.builtin bound) =>
    match Builtin.ofName? bound with
    | some builtin => return builtin
    | none => throw ⟨.unknownBuiltin name, position⟩
  | _ => throw ⟨.unknownBuiltin name, position⟩

/-- Calls the builtin that a name is bound to, with arguments that are evaluated as it asks for. -/
def callWith (name : String) (position : Position) (arguments : Fallback → Step (List Value)) :
    Step Value := do
  let builtin ← callee name position
  nest position do
    let values ← arguments builtin.fallback
    if builtin.arity.accepts values.length then
      ofExcept (builtin.apply (← get).config position values)
    else throw ⟨.wrongCount name builtin.arity values.length, position⟩

/-- The item of a list at a place that is counted from zero. -/
def itemAt (position : Position) (target place : Value) : Except ExpansionFault Value := do
  let place ← place.toInteger position
  let items ← target.toItems position
  let outside : ExpansionFault := ⟨.noSuchItem items.length place, position⟩
  if place.toInt < 0 then throw outside
  match items[place.toInt.toNat]? with
  | some item => return item
  | none => throw outside

/-- The value of an operation. -/
def operate (config : Config) (position : Position) (operator : Operator) (left right : Value) :
    Except ExpansionFault Value :=
  let checked (sum : Option Int64) : Except ExpansionFault Value :=
    match sum with
    | some n => .ok (.integer n)
    | none => .error ⟨.overflow, position⟩
  match operator, left, right with
  | .add, .integer a, .integer b => checked (Number.add? a b)
  | .mul, .integer a, .integer b => checked (Number.mul? a b)
  | .add, .list as, .list bs => do
    checkCount "list" (as.length + bs.length) config position
    return .list (as ++ bs)
  | operator, left, right =>
    .error ⟨.wrongType (.operands operator left.type right.type), position⟩

mutual

/-- The value of an expression; `fallback` says what a name stands for that is bound to nothing. -/
def exprValue : Expr → Fallback → Step Value
  | .number value _, _ => pure (.integer value)
  | .text value _, _ => pure (.text value)
  | .tile code _, _ => pure (.symbol code)
  | .identifier name p, fallback => nameValue name p fallback
  | .range first last p, _ => do
    ofExcept (Builtin.interval first last (← get).config p)
  | .tuple elements p, _ => nest p do
    return .list (← exprValues elements .symbol)
  | .call name arguments p, _ => callWith name p fun fallback => exprValues arguments fallback
  | .index target place p, _ => nest p do
    let target ← exprValue target .nothing
    let place ← exprValue place .nothing
    ofExcept (itemAt p target place)
  | .binary operator left right p, _ => nest p do
    let left ← exprValue left .nothing
    let right ← exprValue right .nothing
    ofExcept (operate (← get).config p operator left right)

/-- The values of some expressions. -/
def exprValues : List Expr → Fallback → Step (List Value)
  | [], _ => pure []
  | e :: es, fallback => do
    let value ← exprValue e fallback
    let values ← exprValues es fallback
    return value :: values

end

/-- The value of a call. -/
def callValue (name : String) (arguments : List Expr) (position : Position) : Step Value :=
  callWith name position fun fallback => exprValues arguments fallback

/-- Runs a step for each element of the source of a loop. A range is walked without making its list.
-/
def forEach (source : Expr) (step : Value → Step Unit) : Step Unit := do
  match source with
  | .range first last p =>
    ofExcept (checkCount "range" (Number.count first last) (← get).config p)
    forRange step (Number.count first last) first.toInt
  | source =>
    let value ← exprValue source .nothing
    match value.elements? with
    | some values => forValues step values
    | none => throw ⟨.noElements source.words value.type, source.position⟩

end Expansion

end HandTemplate
