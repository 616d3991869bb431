import HandTemplate.Expansion.Execution
import HandTemplate.Proofs.Expansion.Reading

/-!
# What a block denotes

The hands of a block, defined without a buffer of tiles and without changing hands that are finished
already. A block without loops denotes the one hand that its group calls make after the tiles it
starts with. A block with loops denotes, for each of its loops in order, the hands that the loop's
body denotes for the elements of the source, each body starting with the tiles that stand before the
loop, and each hand followed by the tiles that stand after the loop. A fault of an expression, a
binding, a source or the depth is the fault of the block; the limit on the number of variations
plays no part here.
-/

namespace HandTemplate

/-- Where a statement is run. -/
structure Context where
  /-- The limits. -/
  config : Config
  /-- How many loops are running. -/
  depth : Nat
  /-- The innermost scope. -/
  frame : Scope
  /-- The scopes around it, the innermost first. -/
  outer : List Scope

/-- What a statement or several statements of a block contribute to the block. -/
structure Effect where
  /-- The innermost scope after them. -/
  frame : Scope
  /-- The tiles of the group calls among them. -/
  tiles : List String
  /-- The hands of the loops among them, as far as these statements determine them. -/
  hands : List (List String)

/-- Two contributions, one after the other: the second one's tiles end the first one's hands. -/
def Effect.andThen (first second : Effect) : Effect :=
  { frame := second.frame
    tiles := first.tiles ++ second.tiles
    hands := first.hands.map (· ++ second.tiles) ++ second.hands }

namespace Context

/-- What values of expressions depend on. -/
def view (c : Context) : Expansion.View := ⟨c.frame :: c.outer, c.config, c.depth⟩

/-- The value of an expression in which every name has to be bound. -/
def value (c : Context) (e : Expr) : Except ExpansionFault Value :=
  c.view.run (Expansion.exprValue e .nothing)

/-- The tiles of a call that stands as a statement; a call that makes no group has none. -/
def callTiles (c : Context) (name : String) (arguments : List Expr) (position : Position) :
    Except ExpansionFault (List String) := do
  match ← c.view.run (Expansion.callValue name arguments position) with
  | .group g => return g.tiles
  | _ => return []

/-- The elements of the source of a loop. -/
def elements (c : Context) (source : Expr) : Except ExpansionFault (List Value) := do
  let value ← c.value source
  match value.elements? with
  | some values => return values
  | none => throw ⟨.noElements source.words value.type, source.position⟩

/-- A scope in which a value is bound. -/
def bind (binding : Binding) (value : Value) (position : Position) (frame : Scope) :
    Except ExpansionFault Scope :=
  match binding, value with
  | .name name, value => .ok (frame.insert name value)
  | .tuple names, .list items =>
    if items.length = names.length then
      .ok ((names.zip items).foldl (fun frame entry => frame.insert entry.1 entry.2) frame)
    else .error ⟨.unbindable names.length (.list items.length), position⟩
  | .tuple names, value => .error ⟨.unbindable names.length (.other value.type), position⟩

/-- The context inside a loop, if loops may be nested that deep. -/
def inLoop (c : Context) (position : Position) : Except ExpansionFault Context :=
  if c.config.maxDepth ≤ c.depth then .error ⟨.tooDeep c.config.maxDepth, position⟩
  else .ok { c with depth := c.depth + 1 }

/-- The context of a body that is run for one element of a source. -/
def forElement (c : Context) (binding : Binding) (position : Position) (item : Value) :
    Except ExpansionFault Context := do
  return { c with frame := ← bind binding item position .empty, outer := c.frame :: c.outer }

/-- The hands of a block that starts with the tiles `before`, from what its statements contribute:
those of its loops, or if it has no loop the one that its tiles make, unless that has no tile. -/
def blockHands (statements : List Statement) (before : List String) (e : Effect) :
    List (List String) :=
  if statements.any Statement.isLoop then e.hands
  else if (before ++ e.tiles).isEmpty then [] else [before ++ e.tiles]

mutual

/-- What a statement contributes to a block, where `before` are the tiles that stand before it. -/
def effect : Statement → (c : Context) → (before : List String) → Except ExpansionFault Effect
  | .assign target value p, c, _ => do
    return ⟨← bind target (← c.value value) p c.frame, [], []⟩
  | .foreach binding source body p, c, before => do
    let inner ← c.inLoop p
    let hands ← (← inner.elements source).mapM fun item => do
      let e ← effects body (← inner.forElement binding p item) before
      return blockHands body before e
    return ⟨c.frame, [], hands.flatten⟩
  | .call name arguments p, c, _ => do
    return ⟨c.frame, ← c.callTiles name arguments p, []⟩

/-- What statements contribute to a block, where `before` are the tiles that stand before them. -/
def effects : List Statement → (c : Context) → (before : List String) →
    Except ExpansionFault Effect
  | [], c, _ => return ⟨c.frame, [], []⟩
  | s :: statements, c, before => do
    let first ← effect s c before
    let others ← effects statements { c with frame := first.frame } (before ++ first.tiles)
    return first.andThen others

end

/-- The hands that a block denotes which starts with the tiles `before`. -/
def hands (c : Context) (statements : List Statement) (before : List String) :
    Except ExpansionFault (List (List String)) :=
  (effects statements c before).map (blockHands statements before)

/-- The context of a program's statements. -/
def ofProgram (program : Program) (config : Config) : Context :=
  ⟨config, 0, Expansion.outermostScope program.metadata, []⟩

end Context

end HandTemplate
