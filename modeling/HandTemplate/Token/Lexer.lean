import HandTemplate.Fault.Lexical
import HandTemplate.LineIndex
import HandTemplate.Token

/-!
# From text to lexemes

At every point of a text the longest stretch that some kind of token, comment or run of spaces
covers is taken, and a word that could be both a name and a keyword is a keyword. `scan` takes one
stretch, `tokenize` the whole text; it counts bytes, and finds the positions of the lexemes by the
lines of the text. Main statements: a stretch and what follows it make up the text
(`lexeme_append_rest`), so nothing is lost between two lexemes, and every step shortens the text.
-/

namespace HandTemplate

namespace Lexer

/-- A stretch of text and what follows it. -/
structure Scan where
  /-- The characters of the stretch. -/
  lexeme : List Char
  /-- The characters after it. -/
  rest : List Char
  /-- The token that the stretch is, none for spaces and comments, or why it is none. -/
  outcome : Except LexicalFault.Cause (Option Token)

/-- Whether a character may begin a name. -/
def isNameStart (c : Char) : Bool := c.isAlpha || c = '_'

/-- Whether a character may stand within a name. -/
def isNamePart (c : Char) : Bool := c.isAlphanum || c = '_' || c = '-'

/-- Whether a character is a space that does not end a line. -/
def isSpace (c : Char) : Bool := c = ' ' || c = '\t' || c = '\r' || c = '\x0c'

/-- Whether a character may stand within a comment. -/
def isCommentPart (c : Char) : Bool := c != '\n' && c != '\r'

/-- The letter that a character counts as where case does not matter. Two characters beyond ASCII
are cases of an ASCII letter: the long s and the Kelvin sign. -/
def foldCase (c : Char) : Char :=
  if c = '\u017f' then 's' else if c = '\u212a' then 'k' else c.toLower

/-- The words that are no names. None of them begins with another one. -/
def reservedWords : List (String × Token) :=
  [("metadata", .keyword .metadata), ("variations", .keyword .variations),
    ("foreach", .keyword .foreach), ("in", .keyword .within), ("end", .keyword .ending),
    ("true", .bool true), ("false", .bool false), ("null", .null)]

/-- Whether a text begins with a word, in any case. -/
def beginsWith (word : String) (cs : List Char) : Bool :=
  (cs.take word.length).map foldCase = word.toList

/-- The reserved word that a text begins with, and its number of characters. -/
def reserved? (cs : List Char) : Option (Token × Nat) :=
  (reservedWords.find? fun entry => beginsWith entry.1 cs).map fun entry =>
    (entry.2, entry.1.length)

/-- The value of decimal digits. -/
def digitsValue (cs : List Char) : Nat :=
  cs.foldl (fun value c => 10 * value + (c.toNat - '0'.toNat)) 0

/-- The word of an integer literal, unless it is too large. -/
def integer? (digits : List Char) : Option Int64 := Number.ofInt? (digitsValue digits)

/-- The number nearest to a decimal literal with the given digits before and after its point. -/
def realValue (whole fraction : List Char) : Binary64 :=
  Binary64.ofDecimal false (digitsValue (whole ++ fraction)) (-fraction.length)

/-- What stands after the escapes of a quoted text are resolved: a backslash stands for the
character that follows it. -/
def unescape : List Char → List Char
  | '\\' :: c :: cs => c :: unescape cs
  | c :: cs => c :: unescape cs
  | [] => []

/-- Splits a text right after its first quote that no backslash precedes. -/
def closing? (quote : Char) : List Char → Option (List Char × List Char)
  | '\\' :: c :: cs => (closing? quote cs).map fun (inside, rest) => ('\\' :: c :: inside, rest)
  | c :: cs =>
    if c = quote then some ([c], cs)
    else if c = '\\' then none
    else (closing? quote cs).map fun (inside, rest) => (c :: inside, rest)
  | [] => none

/-- The stretch at an opening quote. -/
def scanQuoted (quote : Char) (token : String → Token) (cs : List Char) : Scan :=
  match closing? quote cs with
  | some (inside, rest) =>
    { lexeme := quote :: inside, rest
      outcome := .ok (some (token (String.ofList (unescape inside.dropLast)))) }
  | none => { lexeme := quote :: cs, rest := [], outcome := .error .unclosedQuote }

/-- The stretch of the digits `whole` before `rest`. -/
def scanInteger (whole rest : List Char) : Scan :=
  { lexeme := whole, rest
    outcome :=
      match integer? whole with
      | some n => .ok (some (.integer n))
      | none => .error (.hugeInteger (String.ofList whole)) }

/-- The stretch of the digits `whole`, two points, and the digits that `after` begins with. -/
def scanRange (whole after : List Char) : Scan :=
  { lexeme := whole ++ '.' :: '.' :: after.takeWhile Char.isDigit
    rest := after.dropWhile Char.isDigit
    outcome :=
      match integer? whole, integer? (after.takeWhile Char.isDigit) with
      | some first, some last => .ok (some (.range first last))
      | _, _ =>
        let literal := whole ++ '.' :: '.' :: after.takeWhile Char.isDigit
        .error (.hugeInteger (String.ofList literal)) }

/-- The stretch of the digits `whole`, one point, and the digits that `after` begins with. -/
def scanReal (whole after : List Char) : Scan :=
  { lexeme := whole ++ '.' :: after.takeWhile Char.isDigit
    rest := after.dropWhile Char.isDigit
    outcome := .ok (some (.real (realValue whole (after.takeWhile Char.isDigit)))) }

/-- The stretch of the digits `whole` and what belongs to them: a range if two points and a digit
follow, a real number if one point and a digit do, and an integer otherwise. -/
def scanAfter (whole : List Char) : List Char → Scan
  | '.' :: '.' :: d :: more =>
    if d.isDigit then scanRange whole (d :: more) else scanInteger whole ('.' :: '.' :: d :: more)
  | '.' :: d :: more =>
    if d.isDigit then scanReal whole (d :: more) else scanInteger whole ('.' :: d :: more)
  | after => scanInteger whole after

/-- The stretch at a digit. -/
def scanNumber (cs : List Char) : Scan :=
  scanAfter (cs.takeWhile Char.isDigit) (cs.dropWhile Char.isDigit)

/-- The stretch of the longest name that a text begins with. -/
def scanName (cs : List Char) : Scan :=
  { lexeme := cs.takeWhile isNamePart, rest := cs.dropWhile isNamePart
    outcome := .ok (some (.identifier (String.ofList (cs.takeWhile isNamePart)))) }

/-- The stretch at the start of a name: a reserved word, unless a longer name begins here. -/
def scanWord (cs : List Char) : Scan :=
  match reserved? cs with
  | some (token, length) =>
    if (cs.takeWhile isNamePart).length ≤ length then
      { lexeme := cs.take length, rest := cs.drop length, outcome := .ok (some token) }
    else scanName cs
  | none => scanName cs

/-- The stretch that begins with `c`, where `cs` follows. -/
def scan (c : Char) (cs : List Char) : Scan :=
  if c = '\n' then { lexeme := [c], rest := cs, outcome := .ok (some .newline) }
  else if isSpace c then
    { lexeme := c :: cs.takeWhile isSpace, rest := cs.dropWhile isSpace, outcome := .ok none }
  else if c = '/' && cs.head? = some '/' then
    { lexeme := c :: cs.takeWhile isCommentPart, rest := cs.dropWhile isCommentPart
      outcome := .ok none }
  else if c = '"' then scanQuoted '"' .text cs
  else if c = '\'' then scanQuoted '\'' .tile cs
  else if c.isDigit then scanNumber (c :: cs)
  else if isNameStart c then scanWord (c :: cs)
  else
    match Mark.ofChar? c with
    | some mark => { lexeme := [c], rest := cs, outcome := .ok (some (.mark mark)) }
    | none => { lexeme := [c], rest := cs, outcome := .error (.strangeCharacter c) }

/-- A closed quoted text is split and not changed. -/
theorem closing?_append {quote : Char} {cs inside rest : List Char}
    (h : closing? quote cs = some (inside, rest)) : inside ++ rest = cs := by
  fun_induction closing? quote cs generalizing inside rest with
  | case1 c cs ih =>
    obtain ⟨⟨i, r⟩, hi, hir⟩ := Option.map_eq_some_iff.1 h
    cases hir
    simp [ih hi]
  | case2 => simp_all [eq_comm]
  | case3 => simp at h
  | case4 c cs _ hq hc ih =>
    obtain ⟨⟨i, r⟩, hi, hir⟩ := Option.map_eq_some_iff.1 h
    cases hir
    simp [ih hi]
  | case5 => simp at h

/-- A quoted stretch and what follows it make up the text. -/
theorem scanQuoted_append (quote : Char) (token : String → Token) (cs : List Char) :
    (scanQuoted quote token cs).lexeme ++ (scanQuoted quote token cs).rest = quote :: cs := by
  unfold scanQuoted
  split
  · next h => simp [closing?_append h]
  · simp

/-- Digits, what belongs to them and what follows make up the text. -/
theorem scanAfter_append (whole after : List Char) :
    (scanAfter whole after).lexeme ++ (scanAfter whole after).rest = whole ++ after := by
  fun_cases scanAfter whole after <;> simp [scanInteger, scanRange, scanReal]

/-- A number and what follows it make up the text. -/
theorem scanNumber_append (cs : List Char) :
    (scanNumber cs).lexeme ++ (scanNumber cs).rest = cs := by
  rw [scanNumber, scanAfter_append, List.takeWhile_append_dropWhile]

/-- A word and what follows it make up the text. -/
theorem scanWord_append (cs : List Char) : (scanWord cs).lexeme ++ (scanWord cs).rest = cs := by
  fun_cases scanWord cs <;> simp [scanName]

/-- A stretch and what follows it make up the text. -/
theorem lexeme_append_rest (c : Char) (cs : List Char) :
    (scan c cs).lexeme ++ (scan c cs).rest = c :: cs := by
  unfold scan
  repeat' split
  all_goals simp_all [scanQuoted_append, scanNumber_append, scanWord_append]

/-- No stretch is empty. -/
theorem lexeme_ne_nil (c : Char) (cs : List Char) : (scan c cs).lexeme ≠ [] := by
  have word (h : isNameStart c = true) : (scanWord (c :: cs)).lexeme ≠ [] := by
    have part : isNamePart c = true := by
      simp only [isNameStart, isNamePart, Char.isAlphanum, Bool.or_eq_true] at h ⊢
      grind
    fun_cases scanWord (c :: cs) with
    | case1 _ length _ fits => cases length <;> simp_all [List.takeWhile_cons_of_pos part]
    | case2 => simp [scanName, List.takeWhile_cons_of_pos part]
    | case3 => simp [scanName, List.takeWhile_cons_of_pos part]
  have after (whole rest : List Char) : (scanAfter (c :: whole) rest).lexeme ≠ [] := by
    fun_cases scanAfter (c :: whole) rest <;> simp [scanInteger, scanRange, scanReal]
  have number (h : c.isDigit = true) : (scanNumber (c :: cs)).lexeme ≠ [] := by
    rw [scanNumber, List.takeWhile_cons_of_pos h]
    exact after _ _
  have quote (q : Char) (token : String → Token) : (scanQuoted q token cs).lexeme ≠ [] := by
    fun_cases scanQuoted q token cs <;> simp
  unfold scan
  repeat' split
  all_goals simp_all

/-- Every step takes at least one character. -/
theorem length_rest_le (c : Char) (cs : List Char) : (scan c cs).rest.length ≤ cs.length := by
  have total := congrArg List.length (lexeme_append_rest c cs)
  have := List.length_pos_iff.2 (lexeme_ne_nil c cs)
  simp only [List.length_append, List.length_cons] at total
  omega

/-- The lexemes of a text from an offset on, in a text with the given lines. -/
def tokenizeAt (lines : LineIndex) (offset : String.Pos.Raw) :
    List Char → Except LexicalFault (List Lexeme)
  | [] => .ok []
  | c :: cs =>
    match (scan c cs).outcome with
    | .error cause => .error ⟨cause, lines.position offset⟩
    | .ok token? => do
      let later ← tokenizeAt lines (offset + String.ofList (scan c cs).lexeme) (scan c cs).rest
      return (token?.map (⟨·, lines.position offset⟩)).toList ++ later
termination_by cs => cs.length
decreasing_by exact Nat.lt_succ_of_le (length_rest_le c cs)

end Lexer

/-- The lexemes of a text, or its first fault. -/
def tokenize (source : String) : Except LexicalFault (List Lexeme) :=
  Lexer.tokenizeAt (.ofText source) 0 source.toList

end HandTemplate
