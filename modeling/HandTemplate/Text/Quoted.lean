import HandTemplate.Text.Unprintable

/-!
# Quoted text

Messages and listings show a text between double quotes, so that every text is visible and stays on
one line: a quote, a backslash, a tab and the two line ends are written with a backslash, and a
character that is not shown as itself is written by its number.
-/

namespace HandTemplate

namespace Text

/-- The digits of a number in base sixteen, in lower case. -/
def hexadecimal (n : Nat) : String := String.ofList (Nat.toDigits 16 n)

/-- A character as it stands between double quotes. -/
def quotedChar (c : Char) : String :=
  if c = '\x00' then "\\0"
  else if c = '\t' then "\\t"
  else if c = '\r' then "\\r"
  else if c = '\n' then "\\n"
  else if c = '\\' then "\\\\"
  else if c = '"' then "\\\""
  else if isUnprintable c then "\\u\x7b" ++ hexadecimal c.toNat ++ "\x7d"
  else String.singleton c

/-- A text between double quotes. -/
def quoted (s : String) : String :=
  "\"" ++ String.join (s.toList.map quotedChar) ++ "\""

end Text

end HandTemplate
