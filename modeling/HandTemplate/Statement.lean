import HandTemplate.Expr

/-!
# Statements

The body of a template is a list of statements: assignments, loops, and calls whose tiles go into
the variations.
-/

namespace HandTemplate

/-- What a value is bound to. -/
inductive Binding where
  /-- One name, which takes the whole value. -/
  | name (name : String)
  /-- Several names, which take the elements of a list in order. -/
  | tuple (names : List String)
  deriving DecidableEq, Repr

/-- A binding as it is written. -/
def Binding.text : Binding → String
  | name n => n
  | tuple names => "(" ++ String.intercalate ", " names ++ ")"

/-- A statement. -/
inductive Statement where
  /-- Binds the value of an expression. -/
  | assign (target : Binding) (value : Expr) (position : Position)
  /-- Runs a body once for every element of a source. -/
  | foreach (binding : Binding) (source : Expr) (body : List Statement) (position : Position)
  /-- Adds the tiles of a call. -/
  | call (name : String) (arguments : List Expr) (position : Position)
  deriving Repr

namespace Statement

/-- The position of a statement's first token. -/
def position : Statement → Position
  | assign _ _ p | foreach _ _ _ p | call _ _ p => p

/-- Whether a statement is a loop. -/
def isLoop : Statement → Bool
  | foreach .. => true
  | _ => false

end Statement

end HandTemplate
