import HandTemplate.Fault.Expansion
import HandTemplate.Orderings

/-!
# Builtins

The functions that a template can call: those that make tile groups, and those that work on lists
and ranges. A builtin checks the number of its arguments itself, so that it can be used on its own;
a call within a template is checked before.
-/

namespace HandTemplate

/-- What a name that is bound to nothing stands for. -/
inductive Fallback where
  /-- Nothing: it has to be bound. -/
  | nothing
  /-- The symbol of the same name, where the configuration allows that. -/
  | symbol
  deriving DecidableEq, Repr

/-- The functions of the template language. -/
inductive Builtin where
  /-- Makes a tile group of the given shape. -/
  | group (shape : GroupShape)
  /-- Removes elements from a list. -/
  | complement
  /-- Lists all orderings of a list. -/
  | permutations
  /-- Lists the integers between two bounds. -/
  | range
  deriving DecidableEq, Repr

namespace Builtin

/-- All builtins. -/
def all : List Builtin := GroupShape.all.map group ++ [complement, permutations, range]

/-- The name of a builtin. -/
def name : Builtin → String
  | group shape => shape.name
  | complement => "complement"
  | permutations => "permutations"
  | range => "range"

/-- The builtin of the given name. -/
def ofName? (word : String) : Option Builtin := all.find? (·.name = word)

/-- The numbers of arguments that a call may have. -/
def arity : Builtin → Arity
  | group .sequence => .exactly 3
  | group _ => .oneOf [1, 2]
  | complement => .exactly 2
  | permutations => .exactly 1
  | range => .exactly 2

/-- What a name that is bound to nothing stands for among the arguments of a call. -/
def fallback : Builtin → Fallback
  | group _ | complement => .symbol
  | permutations | range => .nothing

/-- The integers from `first` to `last`, unless they are too many. -/
def interval (first last : Int64) (config : Config) (position : Position) :
    Except ExpansionFault Value := do
  checkCount "range" (Number.count first last) config position
  return .list ((Number.range first last).map .integer)

/-- A group of copies of the tile whose code the arguments make up. -/
def copiesOf (shape : GroupShape) (position : Position) (arguments : List Value) :
    Except ExpansionFault Value := do
  let pieces ← arguments.mapM (·.toTileCode position)
  return .group (TileGroup.ofCopies shape (String.join pieces))

/-- A group of consecutive tiles, from its first number, its suit and its length. -/
def sequenceOf (config : Config) (position : Position) (start suit length : Value) :
    Except ExpansionFault Value := do
  let start ← start.toInteger position
  let suit ← suit.toTileCode position
  let count ← length.toInteger position
  if count.toInt < 0 then throw ⟨.wrongType (.negativeLength count), position⟩
  checkCount "sequence" count.toInt.toNat config position
  match TileGroup.ascending? start suit count.toInt.toNat with
  | some tiles => return .group tiles
  | none => throw ⟨.overflow, position⟩

/-- Whether two values count as the same element of a list: text and symbols are compared by their
characters. -/
def isSame : Value → Value → Bool
  | .text a, .text b | .text a, .symbol b | .symbol a, .text b | .symbol a, .symbol b => a = b
  | a, b => a.same b

/-- A list without its first occurrence of each of some elements, taken away one by one. -/
def without (items targets : List Value) : List Value :=
  targets.foldl (fun left target => left.eraseP (isSame · target)) items

/-- What a value takes away from a list: its items if it is a list, and itself otherwise. -/
def targets : Value → List Value
  | .list items => items
  | v => [v]

/-- The elements of a list that are left after others are taken away. -/
def complementOf (position : Position) (target list : Value) : Except ExpansionFault Value := do
  let items ← list.toItems position
  return .list (without items (targets target))

/-- All orderings of a list, unless they are too many. -/
def permutationsOf (config : Config) (position : Position) (list : Value) :
    Except ExpansionFault Value := do
  let items ← list.toItems position
  checkCount "permutations" (Orderings.count items.length) config position
  return .list ((Orderings.all items).map .list)

/-- The integers between two values, unless they are too many. -/
def rangeOf (config : Config) (position : Position) (first last : Value) :
    Except ExpansionFault Value := do
  let first ← first.toInteger position
  let last ← last.toInteger position
  interval first last config position

/-- The fault that a builtin is given a wrong number of arguments. -/
def wrongCount (b : Builtin) (position : Position) (arguments : List Value) : ExpansionFault :=
  ⟨.wrongCount b.name b.arity arguments.length, position⟩

/-- The value of a builtin at some arguments. A group of identical tiles takes any number of them.
-/
def apply (config : Config) (position : Position) (b : Builtin) (arguments : List Value) :
    Except ExpansionFault Value :=
  match b, arguments with
  | group .sequence, [start, suit, length] => sequenceOf config position start suit length
  | complement, [target, list] => complementOf position target list
  | permutations, [list] => permutationsOf config position list
  | range, [first, last] => rangeOf config position first last
  | group .sequence, arguments | complement, arguments | permutations, arguments
  | range, arguments => .error (b.wrongCount position arguments)
  | group shape, arguments => copiesOf shape position arguments

end Builtin

end HandTemplate
