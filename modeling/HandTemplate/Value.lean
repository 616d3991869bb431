import HandTemplate.Binary64.Layout
import HandTemplate.Metadata
import HandTemplate.TileGroup

/-!
# Values

Expressions have values. Text and symbols differ in one respect: a text is made of its characters,
while a symbol, such as a tile code, has no parts. Real numbers, truth values and the absent value
come from the metadata only.
-/

namespace HandTemplate

/-- A value. -/
inductive Value where
  /-- An integer. -/
  | integer (value : Int64)
  /-- A real number. -/
  | real (value : Binary64)
  /-- A text. -/
  | text (value : String)
  /-- A piece of a tile code. -/
  | symbol (value : String)
  /-- A truth value. -/
  | bool (value : Bool)
  /-- The absent value. -/
  | null
  /-- A sequence of values. -/
  | list (items : List Value)
  /-- A tile group. -/
  | group (g : TileGroup)
  /-- The builtin of the given name. -/
  | builtin (name : String)
  deriving Repr

/-- The types of values. -/
inductive ValueType where
  | integer
  | real
  | text
  | symbol
  | bool
  | null
  | list
  | group
  | builtin
  deriving DecidableEq, Repr

/-- The word for a type. -/
def ValueType.name : ValueType → String
  | integer => "integer"
  | real => "real"
  | text => "text"
  | symbol => "symbol"
  | bool => "boolean"
  | null => "null"
  | list => "list"
  | group => "tile group"
  | builtin => "builtin function"

namespace Value

/-- The type of a value. -/
def type : Value → ValueType
  | integer _ => .integer
  | real _ => .real
  | text _ => .text
  | symbol _ => .symbol
  | bool _ => .bool
  | null => .null
  | list _ => .list
  | group _ => .group
  | builtin _ => .builtin

/-- The value that a metadata value has in expressions. -/
def ofDatum : Datum → Value
  | .text value => text value
  | .integer value => integer value
  | .real value => real value
  | .bool value => bool value
  | .null => null
  | .list items => list (items.map ofDatum)

/-- A value as it is shown. -/
def render : Value → String
  | integer value => Number.text value
  | real value => Layout.plain.write value
  | text value | symbol value => value
  | bool value => if value then "true" else "false"
  | null => "null"
  | list items => "(" ++ String.intercalate ", " (items.map render) ++ ")"
  | group g => g.text
  | builtin name => "<builtin " ++ name ++ ">"

mutual

/-- Whether two values are equal; real numbers are compared as numbers. -/
def same : Value → Value → Bool
  | integer a, integer b => a = b
  | real a, real b => a.same b
  | text a, text b => a = b
  | symbol a, symbol b => a = b
  | bool a, bool b => a = b
  | null, null => true
  | list as, list bs => sameItems as bs
  | group a, group b => a = b
  | builtin a, builtin b => a = b
  | _, _ => false

/-- Whether two lists have equal items in the same order. -/
def sameItems : List Value → List Value → Bool
  | [], [] => true
  | a :: as, b :: bs => same a b && sameItems as bs
  | _, _ => false

end

/-- What a loop over a value visits: the items of a list, the characters of a text, or the tiles of
a group. Nothing else has elements. -/
def elements? : Value → Option (List Value)
  | list items => some items
  | text value => some (value.toList.map fun c => text (String.singleton c))
  | group g => some (g.tiles.map symbol)
  | _ => none

end Value

end HandTemplate
