/-!
# Outlines

An outline shows the structure of a value as it is in memory: names of constructors and fields,
texts in quotes, numbers. It is written on one line, or with one item a line and four spaces for
each level.
-/

namespace HandTemplate

/-- A value taken apart for inspection. -/
inductive Outline where
  /-- What has no parts. -/
  | leaf (text : String)
  /-- Parts that are told apart by their names. -/
  | record (name : String) (fields : List (String × Outline))
  /-- Parts that are told apart by their places; a tuple has no name. -/
  | variant (name : String) (parts : List Outline)
  /-- Any number of parts. -/
  | sequence (parts : List Outline)

namespace Outline

/-- A part after its name. -/
def field (name text : String) : String := name ++ ": " ++ text

/-- Parts with commas between them. -/
def joined (parts : List String) : String := String.intercalate ", " parts

/-- An outline on one line. -/
def inline : Outline → String
  | leaf text => text
  | record name fields =>
    name ++ " \x7b " ++ joined (fields.map fun part => field part.1 part.2.inline) ++ " \x7d"
  | variant name parts => name ++ "(" ++ joined (parts.map inline) ++ ")"
  | sequence parts => "[" ++ joined (parts.map inline) ++ "]"
termination_by outline => sizeOf outline
decreasing_by
  · have := List.sizeOf_lt_of_mem ‹_ ∈ _›
    cases part
    simp only [Prod.mk.sizeOf_spec, record.sizeOf_spec] at this ⊢
    omega
  all_goals decreasing_tactic

/-- The white space before a line at the given level. -/
def margin (level : Nat) : String := String.ofList (List.replicate (4 * level) ' ')

/-- Parts between delimiters that stand at the given level: a line for each part, with a comma at
its end. -/
def block (level : Nat) (first last : String) (parts : List String) : String :=
  first ++ "\n" ++ String.join (parts.map fun part => margin (level + 1) ++ part ++ ",\n") ++
    margin level ++ last

/-- An outline at the given level that takes as many lines as it has parts. -/
def tall (level : Nat) : Outline → String
  | leaf text => text
  | record name fields =>
    block level (name ++ " \x7b") "\x7d" (fields.map fun part =>
      field part.1 (part.2.tall (level + 1)))
  | variant name parts => block level (name ++ "(") ")" (parts.map (tall (level + 1)))
  | sequence parts =>
    if parts.isEmpty then "[]" else block level "[" "]" (parts.map (tall (level + 1)))
termination_by outline => sizeOf outline
decreasing_by
  · have := List.sizeOf_lt_of_mem ‹_ ∈ _›
    cases part
    simp only [Prod.mk.sizeOf_spec, record.sizeOf_spec] at this ⊢
    omega
  all_goals decreasing_tactic

/-- An outline in one of the two forms. -/
def render (pretty : Bool) (outline : Outline) : String :=
  if pretty then outline.tall 0 else outline.inline

end Outline

end HandTemplate
