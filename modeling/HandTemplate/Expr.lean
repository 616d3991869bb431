import HandTemplate.Number
import HandTemplate.Position
import HandTemplate.Text.Quoted

/-!
# Expressions

Every expression keeps the position that its messages refer to: that of its first token, except that
an index is placed at its bracket and an operation at its operator.
-/

namespace HandTemplate

/-- The operators between two expressions. -/
inductive Operator where
  /-- Adds integers or joins lists. -/
  | add
  /-- Multiplies integers. -/
  | mul
  deriving DecidableEq, Repr

/-- The character of an operator. -/
def Operator.char : Operator → Char
  | add => '+'
  | mul => '*'

/-- An expression. -/
inductive Expr where
  /-- An integer. -/
  | number (value : Int64) (position : Position)
  /-- A text between double quotes. -/
  | text (value : String) (position : Position)
  /-- A tile code between single quotes. -/
  | tile (code : String) (position : Position)
  /-- A variable, or an atom that stands for itself. -/
  | identifier (name : String) (position : Position)
  /-- The integers from `first` to `last`. -/
  | range (first last : Int64) (position : Position)
  /-- A list of expressions. -/
  | tuple (elements : List Expr) (position : Position)
  /-- A call of a builtin. -/
  | call (name : String) (arguments : List Expr) (position : Position)
  /-- The element of a list at a place counted from zero. -/
  | index (target index : Expr) (position : Position)
  /-- An operation on two expressions. -/
  | binary (operator : Operator) (left right : Expr) (position : Position)
  deriving Repr

namespace Expr

/-- The position that messages about an expression refer to. -/
def position : Expr → Position
  | number _ p | text _ p | tile _ p | identifier _ p | range _ _ p | tuple _ p | call _ _ p
  | index _ _ p | binary _ _ _ p => p

/-- An expression in the words of a message. -/
def words : Expr → String
  | number value _ => "number " ++ Number.text value
  | text value _ | tile value _ => "string " ++ Text.quoted value
  | identifier name _ => "identifier '" ++ name ++ "'"
  | range first last _ => "range " ++ Number.text first ++ ".." ++ Number.text last
  | tuple elements _ => s!"tuple of {elements.length} element(s)"
  | call name _ _ => "call to '" ++ name ++ "'"
  | index _ _ _ => "index expression"
  | binary operator _ _ _ => "'" ++ String.singleton operator.char ++ "' expression"

end Expr

end HandTemplate
