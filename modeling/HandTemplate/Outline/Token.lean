import HandTemplate.Outline
import HandTemplate.Token

/-!
# Outlines of tokens

The listing of a template's tokens has a line for each: where it stands, and what it is.
-/

namespace HandTemplate

namespace Outline

/-- A text in quotes. -/
def text (s : String) : Outline := leaf (Text.quoted s)

/-- An integer. -/
def number (n : Int64) : Outline := leaf (Number.text n)

/-- A real number, always with a point or an exponent. -/
def real (x : Binary64) : Outline := leaf (Layout.inspected.write x)

/-- A truth value. -/
def bool (b : Bool) : Outline := leaf (if b then "true" else "false")

end Outline

/-- The name of a keyword in a listing. -/
def Keyword.label : Keyword → String
  | metadata => "Metadata"
  | variations => "Variations"
  | foreach => "Foreach"
  | within => "In"
  | ending => "End"

/-- The name of a punctuation mark in a listing. -/
def Mark.label : Mark → String
  | leftParen => "LParen"
  | rightParen => "RParen"
  | leftBrace => "LBrace"
  | rightBrace => "RBrace"
  | leftBracket => "LBracket"
  | rightBracket => "RBracket"
  | comma => "Comma"
  | colon => "Colon"
  | semicolon => "Semicolon"
  | equals => "Equals"
  | plus => "Plus"
  | star => "Star"

/-- The kind of a token in a listing. -/
def Token.label : Token → String
  | keyword word => word.label
  | bool _ => "Bool"
  | null => "Null"
  | range _ _ => "NumberRange"
  | real _ => "Real"
  | integer _ => "Integer"
  | identifier _ => "Identifier"
  | text _ => "Str"
  | tile _ => "Tile"
  | mark m => m.label
  | newline => "NewLine"

/-- A token taken apart: its kind, and what it stands for if it is no fixed word. -/
def Token.outline (t : Token) : Outline :=
  match t with
  | keyword _ | null | mark _ | newline => .leaf t.label
  | bool value => .variant t.label [.bool value]
  | range first last => .variant t.label [.variant "" [.number first, .number last]]
  | real value => .variant t.label [.real value]
  | integer value => .variant t.label [.number value]
  | identifier s | text s | tile s => .variant t.label [.text s]

/-- The line for a token. -/
def Lexeme.line (l : Lexeme) : String :=
  s!"{l.position.line}:{l.position.column}\t" ++ l.token.outline.inline

/-- The listing of some tokens. -/
def Lexeme.listing (ts : List Lexeme) : String := String.intercalate "\n" (ts.map line)

end HandTemplate
