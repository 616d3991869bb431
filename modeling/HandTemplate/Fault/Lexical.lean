import HandTemplate.Position

/-!
# Faults of a template's text

Reading tokens stops at the first stretch of text that is no token. The fault names its cause and
the position of the first character of that stretch.
-/

namespace HandTemplate

/-- Why a stretch of text is no token. -/
inductive LexicalFault.Cause where
  /-- A quote that is never closed. -/
  | unclosedQuote
  /-- A character that no token begins with. -/
  | strangeCharacter (character : Char)
  /-- An integer, or a bound of a range, that does not fit into 64 bits; `literal` is as written. -/
  | hugeInteger (literal : String)
  deriving DecidableEq, Repr

/-- A fault of a template's text. -/
structure LexicalFault where
  /-- What is wrong. -/
  cause : LexicalFault.Cause
  /-- Where the rejected stretch begins. -/
  position : Position
  deriving DecidableEq, Repr

namespace LexicalFault

/-- The words for a cause. -/
def Cause.text : Cause → String
  | unclosedQuote => "Unterminated string literal."
  | strangeCharacter character => "Illegal character '" ++ String.singleton character ++ "'."
  | hugeInteger literal => "Integer literal '" ++ literal ++ "' is too large."

/-- The message of a fault. -/
def message (e : LexicalFault) : String := "Error on " ++ e.position.text ++ ": " ++ e.cause.text

end LexicalFault

end HandTemplate
