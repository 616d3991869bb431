import HandTemplate.Binary64.Layout
import HandTemplate.Number

/-!
# JSON documents

A document is a tree whose objects keep the order of their fields. It is written in one of two
styles that differ in white space between tokens only. Numbers that JSON cannot express are written
as `null`.
-/

namespace HandTemplate

/-- A JSON value. -/
inductive Json where
  /-- The absent value. -/
  | null
  /-- A truth value. -/
  | bool (value : Bool)
  /-- An integer. -/
  | integer (value : Int64)
  /-- A real number. -/
  | real (value : Binary64)
  /-- A text. -/
  | string (value : String)
  /-- A sequence of values. -/
  | array (items : List Json)
  /-- A sequence of named values. -/
  | object (fields : List (String × Json))

namespace Json

/-- The white space of a document. -/
inductive Style where
  /-- None. -/
  | compact
  /-- Every item on a line of its own, indented by two spaces for each level. -/
  | pretty
  deriving DecidableEq, Repr

/-- What stands before an item at the given level. -/
def Style.line : Style → Nat → List Char
  | compact, _ => []
  | pretty, level => '\n' :: List.replicate (2 * level) ' '

/-- What stands between a field's name and its value. -/
def Style.colon : Style → List Char
  | compact => [':']
  | pretty => [':', ' ']

/-- A digit in base sixteen, in lower case. -/
def hexDigit (n : Nat) : Char := Nat.digitChar (n % 16)

/-- A character as it stands within a string. -/
def writeChar (c : Char) : List Char :=
  if c = '"' then ['\\', '"']
  else if c = '\\' then ['\\', '\\']
  else if c = '\x08' then ['\\', 'b']
  else if c = '\x0c' then ['\\', 'f']
  else if c = '\n' then ['\\', 'n']
  else if c = '\r' then ['\\', 'r']
  else if c = '\t' then ['\\', 't']
  else if c.toNat < 0x20 then ['\\', 'u', '0', '0', hexDigit (c.toNat / 16), hexDigit c.toNat]
  else [c]

/-- A string. -/
def writeString (s : String) : List Char := '"' :: s.toList.flatMap writeChar ++ ['"']

/-- A real number, or `null` for what is not finite. -/
def writeReal (x : Binary64) : List Char :=
  if x.isNaN || x.isInfinite then "null".toList else (Layout.interchange.write x).toList

/-- The items of an array or the fields of an object that stands at the given level: nothing stands
between the ends of an empty one, and otherwise each item stands on a line of its own. -/
def enclose (style : Style) (level : Nat) (first last : Char) (items : List (List Char)) :
    List Char :=
  match items with
  | [] => [first, last]
  | item :: items =>
    first :: style.line (level + 1) ++ item ++
      items.flatMap (fun item => ',' :: style.line (level + 1) ++ item) ++
      style.line level ++ [last]

/-- A value that stands at the given level. -/
def write (style : Style) (level : Nat) : Json → List Char
  | null => "null".toList
  | bool value => (if value then "true" else "false").toList
  | integer value => (Number.text value).toList
  | real value => writeReal value
  | string value => writeString value
  | array items => enclose style level '[' ']' (items.map fun item => write style (level + 1) item)
  | object fields =>
    enclose style level '\x7b' '\x7d' (fields.map fun field =>
      writeString field.1 ++ style.colon ++ write style (level + 1) field.2)
termination_by document => sizeOf document
decreasing_by
  · decreasing_tactic
  · have := List.sizeOf_lt_of_mem ‹_ ∈ _›
    cases field
    simp only [Prod.mk.sizeOf_spec, object.sizeOf_spec] at this ⊢
    omega

/-- The text of a document. -/
def render (style : Style) (document : Json) : String := String.ofList (write style 0 document)

end Json

end HandTemplate
