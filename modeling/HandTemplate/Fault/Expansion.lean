import HandTemplate.Config
import HandTemplate.Expr
import HandTemplate.Value

/-!
# Faults of an expansion

The first fault ends an expansion. It names its cause and the position of the expression or
statement that it arises in.
-/

namespace HandTemplate

/-- The numbers of arguments that a builtin accepts. -/
inductive Arity where
  /-- This number only. -/
  | exactly (count : Nat)
  /-- Any of these numbers. -/
  | oneOf (counts : List Nat)
  deriving DecidableEq, Repr

namespace Arity

/-- Whether a number of arguments is accepted. -/
def accepts : Arity → Nat → Bool
  | exactly count, n => n = count
  | oneOf counts, n => counts.contains n

/-- The accepted numbers in the words of a message. -/
def text : Arity → String
  | exactly count => toString count
  | oneOf counts => String.intercalate " or " (counts.map toString)

end Arity

/-- How a value fails to have the type that its place needs. -/
inductive TypeFault where
  /-- It is no integer. -/
  | notInteger (found : ValueType)
  /-- It is no list. -/
  | notList (found : ValueType)
  /-- It cannot be part of a tile code. -/
  | notTileCode (found : ValueType)
  /-- It is the length of a sequence and negative. -/
  | negativeLength (count : Int64)
  /-- The two are no operands of the operator. -/
  | operands (operator : Operator) (left right : ValueType)
  deriving DecidableEq, Repr

/-- The words for a type fault. -/
def TypeFault.text : TypeFault → String
  | notInteger found => "expected an integer, found " ++ found.name
  | notList found => "expected a list, found " ++ found.name
  | notTileCode found => "a " ++ found.name ++ " cannot be part of a tile code"
  | negativeLength count => "sequence length must not be negative, found " ++ Number.text count
  | operands operator left right =>
    "cannot apply '" ++ String.singleton operator.char ++ "' to " ++ left.name ++ " and " ++
      right.name

/-- What is bound to several names in vain. -/
inductive Unbindable where
  /-- A list of another length. -/
  | list (length : Nat)
  /-- A value that is no list. -/
  | other (found : ValueType)
  deriving DecidableEq, Repr

/-- The words for what cannot be bound. -/
def Unbindable.text : Unbindable → String
  | list length => s!"a list of {length} element(s)"
  | other found => "a " ++ found.name

/-- Why an expansion ends early. -/
inductive ExpansionFault.Cause where
  /-- A variable is bound in no scope. -/
  | unboundName (name : String)
  /-- A called name is bound to no builtin. -/
  | unknownBuiltin (name : String)
  /-- The source of a loop, described by `source`, has no elements. -/
  | noElements (source : String) (found : ValueType)
  /-- Loops and calls are nested deeper than allowed. -/
  | tooDeep (limit : Nat)
  /-- A builtin is called with a wrong number of arguments. -/
  | wrongCount (name : String) (expected : Arity) (found : Nat)
  /-- A value has the wrong type. -/
  | wrongType (fault : TypeFault)
  /-- A value cannot be bound to this number of names. -/
  | unbindable (expected : Nat) (found : Unbindable)
  /-- A list has no element at this place. -/
  | noSuchItem (length : Nat) (found : Int64)
  /-- An integer leaves the words. -/
  | overflow
  /-- There would be more items of something than allowed. -/
  | tooMany (what : String) (found limit : Nat)
  deriving DecidableEq, Repr

/-- A fault of an expansion. -/
structure ExpansionFault where
  /-- What is wrong. -/
  cause : ExpansionFault.Cause
  /-- Where it is wrong. -/
  position : Position
  deriving DecidableEq, Repr

namespace ExpansionFault

/-- The words for a cause. -/
def Cause.text : Cause → String
  | unboundName name => "Unknown variable '" ++ name ++ "'."
  | unknownBuiltin name => "Unknown function '" ++ name ++ "'."
  | noElements source found => "Cannot iterate over " ++ source ++ " (" ++ found.name ++ ")."
  | tooDeep limit => s!"Nesting exceeds the maximum depth of {limit}."
  | wrongCount name expected found =>
    "'" ++ name ++ "' expects " ++ expected.text ++ s!" argument(s), found {found}."
  | wrongType fault => "Type error: " ++ fault.text ++ "."
  | unbindable expected found =>
    "Cannot bind " ++ found.text ++ s!" to {expected} name(s)."
  | noSuchItem length found =>
    "Index " ++ Number.text found ++ s!" out of bounds for a list of length {length}."
  | overflow => "Integer overflow."
  | tooMany what found limit =>
    what ++ s!" would hold {found} items, more than the limit of {limit}."

/-- The message of a fault. -/
def message (e : ExpansionFault) : String := "Error on " ++ e.position.text ++ ": " ++ e.cause.text

end ExpansionFault

/-- Fails unless `found` items of something are within the limit. -/
def checkCount (what : String) (found : Nat) (config : Config) (position : Position) :
    Except ExpansionFault Unit :=
  if config.maxItems < found then .error ⟨.tooMany what found config.maxItems, position⟩
  else .ok ()

namespace Value

/-- The integer that a value is. -/
def toInteger (position : Position) : Value → Except ExpansionFault Int64
  | integer n => .ok n
  | v => .error ⟨.wrongType (.notInteger v.type), position⟩

/-- The items of the list that a value is. -/
def toItems (position : Position) : Value → Except ExpansionFault (List Value)
  | list items => .ok items
  | v => .error ⟨.wrongType (.notList v.type), position⟩

/-- What a value contributes to a tile code. -/
def toTileCode (position : Position) : Value → Except ExpansionFault String
  | integer n => .ok (Number.text n)
  | real x => .ok (Layout.plain.write x)
  | text s | symbol s => .ok s
  | v => .error ⟨.wrongType (.notTileCode v.type), position⟩

end Value

end HandTemplate
