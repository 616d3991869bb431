import HandTemplate.Binary64.Layout
import HandTemplate.Number
import HandTemplate.Position
import HandTemplate.Text.Quoted

/-!
# Tokens of the template language

A template's text is a sequence of keywords, names, literals, punctuation marks and line ends. A
lexeme is a token together with the position of its first character; spaces and comments leave no
token behind.
-/

namespace HandTemplate

/-- The words that have a meaning of their own. -/
inductive Keyword where
  /-- Opens the metadata block. -/
  | metadata
  /-- Opens the variations block. -/
  | variations
  /-- Opens a loop. -/
  | foreach
  /-- Stands between the binding and the source of a loop. -/
  | within
  /-- Closes a body that began with a colon. -/
  | ending
  deriving DecidableEq, Repr

/-- The spelling of a keyword, in lower case. -/
def Keyword.word : Keyword → String
  | metadata => "metadata"
  | variations => "variations"
  | foreach => "foreach"
  | within => "in"
  | ending => "end"

/-- The punctuation marks. -/
inductive Mark where
  | leftParen
  | rightParen
  | leftBrace
  | rightBrace
  | leftBracket
  | rightBracket
  | comma
  | colon
  | semicolon
  | equals
  | plus
  | star
  deriving DecidableEq, Repr

/-- The character of a punctuation mark. -/
def Mark.char : Mark → Char
  | leftParen => '('
  | rightParen => ')'
  | leftBrace => '\x7b'
  | rightBrace => '\x7d'
  | leftBracket => '['
  | rightBracket => ']'
  | comma => ','
  | colon => ':'
  | semicolon => ';'
  | equals => '='
  | plus => '+'
  | star => '*'

/-- All punctuation marks. -/
def Mark.all : List Mark :=
  [leftParen, rightParen, leftBrace, rightBrace, leftBracket, rightBracket, comma, colon, semicolon,
    equals, plus, star]

/-- The punctuation mark that a character is. -/
def Mark.ofChar? (c : Char) : Option Mark := all.find? (·.char = c)

/-- A word of the template language. -/
inductive Token where
  /-- A keyword, in whatever case it was written. -/
  | keyword (word : Keyword)
  /-- A truth value. -/
  | bool (value : Bool)
  /-- The word for an absent value. -/
  | null
  /-- Two integers joined by two points; the first may exceed the last. -/
  | range (first last : Int64)
  /-- A number with digits after its point. -/
  | real (value : Binary64)
  /-- A number without a point. -/
  | integer (value : Int64)
  /-- A name. -/
  | identifier (name : String)
  /-- What stands between double quotes, its escapes resolved. -/
  | text (value : String)
  /-- What stands between single quotes, its escapes resolved. -/
  | tile (code : String)
  /-- A punctuation mark. -/
  | mark (m : Mark)
  /-- The end of a line. -/
  | newline
  deriving DecidableEq, Repr

namespace Token

/-- A token in the words of a message. -/
def words : Token → String
  | keyword word => "'" ++ word.word ++ "'"
  | bool value => if value then "'true'" else "'false'"
  | null => "'null'"
  | range first last => "range " ++ Number.text first ++ ".." ++ Number.text last
  | real value => "number " ++ Layout.plain.write value
  | integer value => "number " ++ Number.text value
  | identifier name => "identifier '" ++ name ++ "'"
  | text value => "string " ++ Text.quoted value
  | tile code => "tile '" ++ code ++ "'"
  | mark m => "'" ++ String.singleton m.char ++ "'"
  | newline => "end of line"

end Token

/-- A token and where it stands. -/
structure Lexeme where
  /-- What was written. -/
  token : Token
  /-- The position of its first character. -/
  position : Position
  deriving DecidableEq, Repr

end HandTemplate
