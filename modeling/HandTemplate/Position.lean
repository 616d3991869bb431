/-!
# Positions in a template's text

A position is a line and a column, both counted from one. A column counts characters, whatever their
width in bytes, and a line feed is the last character of its line.
-/

namespace HandTemplate

/-- A place in a text. -/
structure Position where
  /-- The line, counted from one. -/
  line : Nat
  /-- The character within the line, counted from one. -/
  column : Nat
  deriving DecidableEq, Repr

namespace Position

/-- The place of a text's first character. -/
def start : Position := ⟨1, 1⟩

/-- The place right after the character `c` at `p`. -/
def next (p : Position) (c : Char) : Position :=
  if c = '\n' then ⟨p.line + 1, 1⟩ else ⟨p.line, p.column + 1⟩

/-- The place right after the characters `cs`, the first of which stands at `p`. -/
def advance (p : Position) (cs : List Char) : Position := cs.foldl next p

/-- A position in the words of a message. -/
def text (p : Position) : String := s!"line {p.line}, column {p.column}"

/-- No characters lead nowhere else. -/
@[simp] theorem advance_nil (p : Position) : p.advance [] = p := rfl

/-- A position advances by one character after the other. -/
@[simp] theorem advance_cons (p : Position) (c : Char) (cs : List Char) :
    p.advance (c :: cs) = (p.next c).advance cs := rfl

/-- Two stretches of text are passed one after the other. -/
theorem advance_append (p : Position) (cs ds : List Char) :
    p.advance (cs ++ ds) = (p.advance cs).advance ds := List.foldl_append ..

end Position

end HandTemplate
