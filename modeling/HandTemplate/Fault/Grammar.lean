import HandTemplate.Token

/-!
# Faults of a template's structure

A fault found at a token names that token and its position. A fault for which the text ends too
early has no position, except that an open delimiter is reported where it was opened.
-/

namespace HandTemplate

/-- The pairs of marks that enclose something. -/
inductive Delimiter where
  /-- `(` and `)`. -/
  | paren
  /-- `[` and `]`. -/
  | bracket
  /-- `{` and `}`. -/
  | brace
  deriving DecidableEq, Repr

namespace Delimiter

/-- The mark that opens. -/
def opening : Delimiter → Mark
  | paren => .leftParen
  | bracket => .leftBracket
  | brace => .leftBrace

/-- The mark that closes. -/
def closing : Delimiter → Mark
  | paren => .rightParen
  | bracket => .rightBracket
  | brace => .rightBrace

end Delimiter

/-- A fault of a template's structure. -/
inductive GrammarFault where
  /-- The metadata block is missing. -/
  | noMetadata (found : Token) (position : Position)
  /-- The variations block is missing. -/
  | noVariations (found : Token) (position : Position)
  /-- No statement begins with this token. -/
  | noStatement (found : Token) (position : Position)
  /-- A delimiter was opened here and never closed. -/
  | unclosed (delimiter : Delimiter) (position : Position)
  /-- The header of a loop goes on with this token after its binding. -/
  | noIn (found : Token) (position : Position)
  /-- Something else was expected at this token. -/
  | unexpected (expected : String) (found : Token) (position : Position)
  /-- Something was expected and the text ends. -/
  | endOfText (expected : String)
  /-- The text goes on after the variations block. -/
  | trailing (found : Token) (position : Position)
  /-- Blocks or expressions are nested deeper than allowed. -/
  | tooDeep (limit : Nat) (position : Position)
  deriving DecidableEq, Repr

namespace GrammarFault

/-- The position of a fault, if it has one. -/
def position? : GrammarFault → Option Position
  | noMetadata _ p | noVariations _ p | noStatement _ p | unclosed _ p
  | noIn _ p | unexpected _ _ p | trailing _ p | tooDeep _ p =>
    some p
  | endOfText _ => none

/-- The words for a fault, without its position. -/
def text : GrammarFault → String
  | noMetadata found _ => "Expected 'metadata' block, found " ++ found.words ++ "."
  | noVariations found _ => "Expected 'variations' block, found " ++ found.words ++ "."
  | noStatement found _ => "Expected a statement, found " ++ found.words ++ "."
  | unclosed delimiter _ =>
    "Unclosed delimiter '" ++ String.singleton delimiter.opening.char ++ "'."
  | noIn found _ => "Expected 'in' in foreach header, found " ++ found.words ++ "."
  | unexpected expected found _ =>
    "Expected " ++ expected ++ ", found " ++ found.words ++ "."
  | endOfText expected => "Expected " ++ expected ++ "."
  | trailing found _ =>
    "Unexpected " ++ found.words ++ " after the variations block."
  | tooDeep limit _ => s!"Nesting exceeds the maximum depth of {limit}."

/-- The message of a fault. -/
def message (e : GrammarFault) : String :=
  match e.position? with
  | some position => "Error on " ++ position.text ++ ": " ++ e.text
  | none => "Error at end of input: " ++ e.text

end GrammarFault

end HandTemplate
