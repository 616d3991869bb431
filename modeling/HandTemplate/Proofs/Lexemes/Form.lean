import HandTemplate.Proofs.Rounding
import HandTemplate.Token.Lexer

/-!
# The forms of a stretch of text

What a text is made of, without regard to how it is scanned: the forms that a stretch of text can
have, each with the token that it stands for (`Form`), the longest stretch with a form that a text
begins with (`Longest`), and the texts that begin with no token (`Rejected`). A text splits into its
longest stretches one after the other (`Splits`), so that every character stands in exactly one of
them. The value of a real number is not the one that is computed for it but the one to which its
digits are rounded (`Binary64.Rounds`).
-/

namespace HandTemplate

namespace Lexer

/-- What a stretch of text is: a token, none where it is spaces or a comment, or the cause for which
it is rejected. -/
abbrev Outcome := Except LexicalFault.Cause (Option Token)

/-- One digit or more, and nothing else. -/
def Digits (text : List Char) : Prop := text ≠ [] ∧ ∀ c ∈ text, c.isDigit

/-- A letter or an underscore, and after it letters, digits, underscores and hyphens. -/
def Name (text : List Char) : Prop :=
  ∃ c cs, text = c :: cs ∧ (c.isAlpha ∨ c = '_') ∧ ∀ d ∈ cs, d.isAlphanum ∨ d = '_' ∨ d = '-'

/-- The words that are no names, in lower case, and the tokens that they stand for. -/
inductive Reserved : String → Token → Prop where
  | keyword (word : Keyword) : Reserved word.word (.keyword word)
  | bool (value : Bool) : Reserved (toString value) (.bool value)
  | null : Reserved "null" .null

/-- `Quoted quote inside content`: between two quotes, `inside` stands for `content`. A backslash
stands for the character after it, whichever that is, and no quote stands for itself. -/
inductive Quoted (quote : Char) : List Char → List Char → Prop where
  | empty : Quoted quote [] []
  | plain {c : Char} {inside content : List Char} (hquote : c ≠ quote) (hescape : c ≠ '\\')
      (hrest : Quoted quote inside content) : Quoted quote (c :: inside) (c :: content)
  | escape (c : Char) {inside content : List Char} (hrest : Quoted quote inside content) :
      Quoted quote ('\\' :: c :: inside) (c :: content)

/-- The forms of a stretch of text. -/
inductive Form : List Char → Outcome → Prop where
  /-- The end of a line. -/
  | newline : Form ['\n'] (.ok (some .newline))
  /-- A punctuation mark. -/
  | mark (m : Mark) : Form [m.char] (.ok (some (.mark m)))
  /-- Spaces, tabs, carriage returns and form feeds. -/
  | spaces {text : List Char} (hne : text ≠ [])
      (hspaces : ∀ c ∈ text, c ∈ [' ', '\t', '\r', '\x0c']) : Form text (.ok none)
  /-- Two slashes and whatever follows them on their line. -/
  | comment {text : List Char} (htext : ∀ c ∈ text, c ≠ '\n' ∧ c ≠ '\r') :
      Form ('/' :: '/' :: text) (.ok none)
  /-- Digits, as the word of their decimal value. -/
  | integer {digits : List Char} {n : Int64} (hdigits : Digits digits)
      (hn : n.toInt = Nat.ofDigitChars 10 digits 0) : Form digits (.ok (some (.integer n)))
  /-- Digits that no word has the value of. -/
  | hugeInteger {digits : List Char} (hdigits : Digits digits)
      (hhuge : Nat.pow 2 63 ≤ Nat.ofDigitChars 10 digits 0) :
      Form digits (.error (.hugeInteger (String.ofList digits)))
  /-- Digits, two points and digits, as the words of both decimal values. -/
  | range {lower upper : List Char} {first last : Int64} (hlower : Digits lower)
      (hupper : Digits upper) (hfirst : first.toInt = Nat.ofDigitChars 10 lower 0)
      (hlast : last.toInt = Nat.ofDigitChars 10 upper 0) :
      Form (lower ++ '.' :: '.' :: upper) (.ok (some (.range first last)))
  /-- Digits, two points and digits, where no word has the value of one of the two. -/
  | hugeRange {lower upper : List Char} (hlower : Digits lower) (hupper : Digits upper)
      (hhuge : Nat.pow 2 63 ≤ Nat.ofDigitChars 10 lower 0 ∨
        Nat.pow 2 63 ≤ Nat.ofDigitChars 10 upper 0) :
      Form (lower ++ '.' :: '.' :: upper)
        (.error (.hugeInteger (String.ofList (lower ++ '.' :: '.' :: upper))))
  /-- Digits, one point and digits, as the number to which the decimal fraction is rounded. -/
  | real {whole fraction : List Char} {x : Binary64} (hwhole : Digits whole)
      (hfraction : Digits fraction)
      (hx : Binary64.Rounds false
        (Nat.ofDigitChars 10 (whole ++ fraction) 0 / 10 ^ fraction.length) x) :
      Form (whole ++ '.' :: fraction) (.ok (some (.real x)))
  /-- A reserved word in any case. -/
  | reserved {word : String} {token : Token} {text : List Char} (hword : Reserved word token)
      (hcase : text.map foldCase = word.toList) : Form text (.ok (some token))
  /-- A name that is no reserved word, as it is written. -/
  | name {text : List Char} (hname : Name text)
      (hfree : ∀ word token, Reserved word token → text.map Char.toLower ≠ word.toList) :
      Form text (.ok (some (.identifier (String.ofList text))))
  /-- A text in double quotes. -/
  | text {inside content : List Char} (hquoted : Quoted '"' inside content) :
      Form ('"' :: (inside ++ ['"'])) (.ok (some (.text (String.ofList content))))
  /-- A text in single quotes. -/
  | tile {inside content : List Char} (hquoted : Quoted '\'' inside content) :
      Form ('\'' :: (inside ++ ['\''])) (.ok (some (.tile (String.ofList content))))

/-- `Longest stretch after outcome`: of all that `stretch ++ after` begins with, `stretch` is the
longest that has a form. -/
structure Longest (stretch after : List Char) (outcome : Outcome) : Prop where
  /-- The stretch has a form. -/
  form : Form stretch outcome
  /-- No longer stretch has one. -/
  longest : ∀ other outcome', Form other outcome' → other <+: stretch ++ after →
    other.length ≤ stretch.length

/-- `Splits p text lexemes q rest`: the text that begins at `p` consists of stretches, each of them
the longest one of its place, and of `rest`, which begins at `q`. The stretches other than spaces
and comments are the lexemes. -/
inductive Splits : Position → List Char → List Lexeme → Position → List Char → Prop where
  | done (p : Position) (text : List Char) : Splits p text [] p text
  | skip {p q : Position} {stretch after rest : List Char} {lexemes : List Lexeme}
      (hstretch : Longest stretch after (.ok none))
      (hafter : Splits (p.advance stretch) after lexemes q rest) :
      Splits p (stretch ++ after) lexemes q rest
  | lexeme {p q : Position} {stretch after rest : List Char} {lexemes : List Lexeme} {token : Token}
      (hstretch : Longest stretch after (.ok (some token)))
      (hafter : Splits (p.advance stretch) after lexemes q rest) :
      Splits p (stretch ++ after) (⟨token, p⟩ :: lexemes) q rest

/-- `Rejected text cause`: no token begins the text, for the given cause. -/
inductive Rejected : List Char → LexicalFault.Cause → Prop where
  /-- A quote without another one after it that closes it. -/
  | unclosed {quote : Char} {text : List Char} (hquote : quote = '"' ∨ quote = '\'')
      (hopen : ∀ inside content, Quoted quote inside content → ¬ inside ++ [quote] <+: text) :
      Rejected (quote :: text) .unclosedQuote
  /-- An integer or a range that no words have the values of, with its spelling. -/
  | huge {stretch after : List Char}
      (hstretch : Longest stretch after (.error (.hugeInteger (String.ofList stretch)))) :
      Rejected (stretch ++ after) (.hugeInteger (String.ofList stretch))
  /-- A character other than a quote that begins nothing. -/
  | strange {c : Char} {text : List Char} (hquote : c ≠ '"' ∧ c ≠ '\'')
      (hnone : ∀ stretch outcome, Form stretch outcome → ¬ stretch <+: c :: text) :
      Rejected (c :: text) (.strangeCharacter c)

/-! ## Forms -/

/-- The reserved words are those that a scan looks for. -/
theorem reserved_iff_mem {word : String} {token : Token} :
    Reserved word token ↔ (word, token) ∈ reservedWords := by
  constructor
  · rintro (word | value | _)
    · cases word <;> decide
    · cases value <;> decide
    · decide
  · intro h
    simp only [reservedWords, List.mem_cons, List.not_mem_nil, or_false, Prod.mk.injEq] at h
    rcases h with ⟨rfl, rfl⟩ | ⟨rfl, rfl⟩ | ⟨rfl, rfl⟩ | ⟨rfl, rfl⟩ | ⟨rfl, rfl⟩ | ⟨rfl, rfl⟩ |
      ⟨rfl, rfl⟩ | ⟨rfl, rfl⟩
    · exact .keyword .metadata
    · exact .keyword .variations
    · exact .keyword .foreach
    · exact .keyword .within
    · exact .keyword .ending
    · exact .bool true
    · exact .bool false
    · exact .null

/-- No form is empty. -/
theorem Form.ne_nil {text : List Char} {outcome : Outcome} (h : Form text outcome) : text ≠ [] := by
  cases h with
  | newline | mark | comment | text | tile => exact List.cons_ne_nil _ _
  | spaces hne => exact hne
  | integer hdigits => exact hdigits.1
  | hugeInteger hdigits => exact hdigits.1
  | range hlower | hugeRange hlower | real hlower =>
    exact List.append_ne_nil_of_left_ne_nil hlower.1 _
  | reserved hword hcase =>
    have hlength : ∀ entry ∈ reservedWords, entry.1.toList ≠ [] := by decide
    rintro rfl
    exact hlength _ (reserved_iff_mem.1 hword) hcase.symm
  | name hname =>
    obtain ⟨c, cs, rfl, -⟩ := hname
    exact List.cons_ne_nil _ _

/-- A stretch with a form is rejected as an integer that is too large, with its spelling, or not at
all. -/
theorem Form.error_eq {text : List Char} {cause : LexicalFault.Cause}
    (h : Form text (.error cause)) : cause = .hugeInteger (String.ofList text) := by
  cases h with
  | hugeInteger | hugeRange => rfl

/-! ## Splitting a text -/

/-- The stretches before the rest of a text are all that stands before it. -/
theorem Splits.eq_append {p q : Position} {text rest : List Char} {lexemes : List Lexeme}
    (h : Splits p text lexemes q rest) :
    ∃ before, text = before ++ rest ∧ q = p.advance before := by
  induction h with
  | done p text => exact ⟨[], rfl, rfl⟩
  | @skip p q stretch after rest lexemes hstretch hafter ih
  | @lexeme p q stretch after rest lexemes token hstretch hafter ih =>
    obtain ⟨before, rfl, rfl⟩ := ih
    exact ⟨stretch ++ before, (List.append_assoc ..).symm, (p.advance_append ..).symm⟩

end Lexer

end HandTemplate
