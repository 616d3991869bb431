import HandTemplate.Expansion.Evaluation
import HandTemplate.Program

/-!
# Running statements

A block without loops finishes a variation each time it ends with tiles under construction. In a
block with loops, the tiles before a loop begin every variation that the loop finishes, and the
tiles after it end them. What a block adds to the variation under construction is taken away again
when it ends.
-/

namespace HandTemplate

namespace Expansion

/-- Runs the statements of a block, which `run` does once it knows the number of variations that
were finished before the block. At the end of a block without loops a variation is finished, and
then the tiles of the block are taken away. A fault leaves them in place. -/
def block (statements : List Statement) (position : Position) (run : Nat → Step Unit) :
    Step Unit := do
  let before ← get
  let buffer := before.buffer
  run before.variations.size
  if !statements.any Statement.isLoop then
    unless (← get).buffer.isEmpty do
      finish ((statements.getLast?.map Statement.position).getD position)
  modify fun m => { m with buffer }

mutual

/-- Runs the statements of a block that began when `first` variations were finished; `looped` says
whether a loop of the block has run before. -/
def runAll : List Statement → (first : Nat) → (looped : Bool) → Step Unit
  | [], _, _ => pure ()
  | s :: statements, first, looped => do
    run s first looped
    runAll statements first (looped || s.isLoop)

/-- Runs a statement of a block that began when `first` variations were finished. -/
def run : Statement → (first : Nat) → (looped : Bool) → Step Unit
  | .assign target value p, _, _ => do
    assign target (← exprValue value .nothing) p
  | .foreach binding source body p, _, _ => nest p do
    forEach source fun item => inScope do
      assign binding item p
      block body p fun first => runAll body first false
  | .call name arguments p, first, looped => do
    match ← callValue name arguments p with
    | .group tiles => addTiles tiles.tiles first looped
    | _ => pure ()

end

/-- Runs a block. -/
def runBlock (statements : List Statement) (position : Position) : Step Unit :=
  block statements position fun first => runAll statements first false

/-- Runs the body of a loop for each element of its source. -/
def runLoop (binding : Binding) (source : Expr) (body : List Statement) (position : Position) :
    Step Unit :=
  run (.foreach binding source body position) 0 false

/-- The outermost scope of a program: the builtins, and then the metadata under their names. -/
def outermostScope (metadata : Metadata) : Scope :=
  metadata.entries.foldl (fun scope entry => scope.insert entry.1 (.ofDatum entry.2))
    (Record.ofList (Builtin.all.map fun b => (b.name, .builtin b.name)))

/-- Runs a program in a state, whose scopes give way to the program's own, and gives all variations
that are finished by then. -/
def runProgram (program : Program) : Step (List Variation) := do
  modify fun m =>
    { m with
      scopes := [outermostScope program.metadata]
      name := program.metadata.text? "name"
      description := program.metadata.text? "description" }
  runBlock program.body .start
  return (← get).variations.toList

end Expansion

/-- The variations of a program. -/
def Program.expand (program : Program) (config : Config) : Except ExpansionFault (List Variation) :=
  match Expansion.runProgram program (Expansion.new config) with
  | .ok variations _ => .ok variations
  | .error e _ => .error e

end HandTemplate
