import HandTemplate.Json
import HandTemplate.Record

/-!
# Metadata

A template opens with a record of plain values that describe it. The record is passed on to the
output as it is, in its own order.
-/

namespace HandTemplate

/-- A value of the metadata block. -/
inductive Datum where
  /-- A quoted text or a bare name. -/
  | text (value : String)
  /-- An integer. -/
  | integer (value : Int64)
  /-- A real number. -/
  | real (value : Binary64)
  /-- A truth value. -/
  | bool (value : Bool)
  /-- The absent value. -/
  | null
  /-- A sequence of values. -/
  | list (items : List Datum)
  deriving Repr

namespace Datum

/-- The text of a value, if it is one. -/
def text? : Datum → Option String
  | text value => some value
  | _ => none

/-- A value as it is written in JSON, which does not tell what kind of value it was. -/
def toJson : Datum → Json
  | text value => .string value
  | integer value => .integer value
  | real value => .real value
  | bool value => .bool value
  | null => .null
  | list items => .array (items.map toJson)

end Datum

/-- The metadata of a template. -/
abbrev Metadata := Record Datum

namespace Metadata

/-- The text stored under a name, if a text is stored there. -/
def text? (m : Metadata) (name : String) : Option String := (m.get? name).bind Datum.text?

/-- The record as a JSON object. -/
def toJson (m : Metadata) : Json :=
  .object (m.entries.map fun (name, value) => (name, value.toJson))

end Metadata

end HandTemplate
