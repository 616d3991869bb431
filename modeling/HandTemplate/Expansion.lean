import HandTemplate.Builtin
import HandTemplate.Statement
import HandTemplate.Variation

/-!
# The state of an expansion

An expansion runs the statements of a template. Its state holds the scopes in which names are bound,
the tiles that the variation under construction has so far, and the variations that are finished. A
step that fails leaves its state behind as well, so that an expansion can go on after a fault.
-/

namespace HandTemplate

/-- The names that are bound in one block, and their values. -/
abbrev Scope := Record Value

/-- The state of an expansion. -/
structure Expansion where
  /-- The scopes, the innermost first. -/
  scopes : List Scope
  /-- The limits. -/
  config : Config
  /-- How many loops and calls are running. -/
  depth : Nat
  /-- The tiles of the variation under construction. -/
  buffer : List String
  /-- The finished variations, the earliest first. -/
  variations : Array Variation
  /-- The name that finished variations get. -/
  name : Option String
  /-- The description that finished variations get. -/
  description : Option String

/-- A step of an expansion with a result of type `α`; its state outlives a fault. -/
abbrev Step (α : Type) := EStateM ExpansionFault Expansion α

namespace Expansion

/-- The state with one empty scope and nothing else. -/
def new (config : Config) : Expansion :=
  { scopes := [.empty], config, depth := 0, buffer := [], variations := #[], name := none
    description := none }

/-- The step that gives a computed result or fails as the computation did. -/
def ofExcept {α : Type} : Except ExpansionFault α → Step α
  | .ok value => pure value
  | .error e => throw e

/-- The value that a name has in the innermost of some scopes that bind it. -/
def lookup (name : String) (scopes : List Scope) : Option Value :=
  scopes.findSome? (·.get? name)

/-- The value that a name has. -/
def valueOf? (m : Expansion) (name : String) : Option Value := lookup name m.scopes

/-- The scopes after a name is bound in the innermost one, which is made if there is none. -/
def bindIn (name : String) (value : Value) : List Scope → List Scope
  | [] => [Record.empty.insert name value]
  | scope :: scopes => scope.insert name value :: scopes

/-- The state after a name is bound in the innermost scope. -/
def define (m : Expansion) (name : String) (value : Value) : Expansion :=
  { m with scopes := bindIn name value m.scopes }

/-- The state with one more, empty scope. -/
def openScope (m : Expansion) : Expansion := { m with scopes := .empty :: m.scopes }

/-- The state without its innermost scope. -/
def closeScope (m : Expansion) : Expansion := { m with scopes := m.scopes.tail }

/-- Binds a value in the innermost scope. Several names take the elements of a list of as many. -/
def assign (binding : Binding) (value : Value) (position : Position) : Step Unit :=
  match binding, value with
  | .name name, value => modify (·.define name value)
  | .tuple names, .list items =>
    if items.length = names.length then
      modify fun m => (names.zip items).foldl (fun m entry => m.define entry.1 entry.2) m
    else throw ⟨.unbindable names.length (.list items.length), position⟩
  | .tuple names, value =>
    throw ⟨.unbindable names.length (.other value.type), position⟩

/-- Runs a step one level deeper, if the limit allows that; the level is left again in any case. -/
def nest {α : Type} (position : Position) (step : Step α) : Step α := fun m =>
  if m.config.maxDepth ≤ m.depth then .error ⟨.tooDeep m.config.maxDepth, position⟩ m
  else
    match step { m with depth := m.depth + 1 } with
    | .ok value m => .ok value { m with depth := m.depth - 1 }
    | .error e m => .error e { m with depth := m.depth - 1 }

/-- Runs a step in a scope of its own, which is left again in any case. -/
def inScope {α : Type} (step : Step α) : Step α := fun m =>
  match step m.openScope with
  | .ok value m => .ok value m.closeScope
  | .error e m => .error e m.closeScope

/-- Runs a step for each of `count` integers from `first` on. -/
def forRange (step : Value → Step Unit) : (count : Nat) → (first : Int) → Step Unit
  | 0, _ => pure ()
  | count + 1, first => do
    step (.integer (Int64.ofInt first))
    forRange step count (first + 1)

/-- Runs a step for each of some values. -/
def forValues (step : Value → Step Unit) : List Value → Step Unit
  | [] => pure ()
  | value :: values => do
    step value
    forValues step values

/-- Some variations, where those from place `first` on have more tiles at their end. -/
def extendFrom (first : Nat) (tiles : List String) (variations : Array Variation) :
    Array Variation :=
  (List.range' first (variations.size - first)).foldl
    (fun vs i => vs.modify i fun v => { v with tiles := v.tiles ++ tiles }) variations

/-- Adds tiles to the variation under construction, and to the variations from place `first` on if a
loop of the same block has run before. -/
def addTiles (tiles : List String) (first : Nat) (looped : Bool) : Step Unit := do
  if looped && !tiles.isEmpty then
    modify fun m => { m with variations := extendFrom first tiles m.variations }
  modify fun m => { m with buffer := m.buffer ++ tiles }

/-- Finishes the variation under construction, unless there are too many. -/
def finish (position : Position) : Step Unit := do
  let m ← get
  ofExcept (checkCount "variations" (m.variations.size + 1) m.config position)
  modify fun m =>
    { m with variations := m.variations.push ⟨m.buffer, m.name, m.description⟩ }

end Expansion

end HandTemplate
