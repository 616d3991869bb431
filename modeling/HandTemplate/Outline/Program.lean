import HandTemplate.Outline.Token
import HandTemplate.Program

/-!
# Outlines of programs

Every node of a program is shown with its kind, its parts and its position.
-/

namespace HandTemplate

/-- A position taken apart. -/
def Position.outline (p : Position) : Outline :=
  .record "Position" [("line", .leaf (toString p.line)), ("column", .leaf (toString p.column))]

/-- A metadata value taken apart. -/
def Datum.outline : Datum → Outline
  | text value => .variant "Text" [.text value]
  | integer value => .variant "Integer" [.number value]
  | real value => .variant "Real" [.real value]
  | bool value => .variant "Bool" [.bool value]
  | null => .leaf "Null"
  | list items => .variant "List" [.sequence (items.map outline)]

/-- Metadata taken apart. -/
def Metadata.outline (m : Metadata) : Outline :=
  .record "Metadata" [("entries", .sequence (m.entries.map fun (name, value) =>
    .variant "" [.text name, value.outline]))]

/-- An operator taken apart. -/
def Operator.outline : Operator → Outline
  | add => .leaf "Add"
  | mul => .leaf "Mul"

/-- An expression taken apart. -/
def Expr.outline : Expr → Outline
  | number value p => .record "NumberLiteral" [("value", .number value), ("position", p.outline)]
  | text value p =>
    .record "StringLiteral"
      [("value", .text value), ("quote", .leaf "Double"), ("position", p.outline)]
  | tile code p =>
    .record "StringLiteral"
      [("value", .text code), ("quote", .leaf "Single"), ("position", p.outline)]
  | identifier name p => .record "Identifier" [("name", .text name), ("position", p.outline)]
  | range first last p =>
    .record "NumberRange"
      [("start", .number first), ("end", .number last), ("position", p.outline)]
  | tuple elements p =>
    .record "Tuple" [("elements", .sequence (elements.map outline)), ("position", p.outline)]
  | call name arguments p =>
    .record "FunctionCall"
      [("name", .text name), ("arguments", .sequence (arguments.map outline)),
        ("position", p.outline)]
  | index target place p =>
    .record "Index"
      [("target", target.outline), ("index", place.outline), ("position", p.outline)]
  | binary operator left right p =>
    .record "BinaryOp"
      [("left", left.outline), ("op", operator.outline), ("right", right.outline),
        ("position", p.outline)]

/-- A binding taken apart. -/
def Binding.outline : Binding → Outline
  | name n => .variant "Name" [.text n]
  | tuple names => .variant "Tuple" [.sequence (names.map .text)]

/-- A statement taken apart. -/
def Statement.outline : Statement → Outline
  | assign target value p =>
    .record "Assignment"
      [("target", target.outline), ("value", value.outline), ("position", p.outline)]
  | foreach binding source body p =>
    .record "ForeachLoop"
      [("binding", binding.outline), ("source", source.outline),
        ("body", .sequence (body.map outline)), ("position", p.outline)]
  | call name arguments p =>
    .record "FunctionCall"
      [("name", .text name), ("arguments", .sequence (arguments.map Expr.outline)),
        ("position", p.outline)]

/-- A program taken apart. -/
def Program.outline (program : Program) : Outline :=
  .record "Program"
    [("metadata", program.metadata.outline),
      ("body", .sequence (program.body.map Statement.outline))]

end HandTemplate
