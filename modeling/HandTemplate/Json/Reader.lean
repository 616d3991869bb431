import HandTemplate.Binary64

/-!
# Reading the tokens of JSON

A reader takes what it reads off the front of a list of characters. It tells three faults apart:
what breaks the rules of JSON, what ends too early, and what is well-formed but not asked for. The
last one is reported as soon as it has been read to its end, whatever follows it.
-/

namespace HandTemplate

namespace Json

/-- Why a text does not give what is read from it. -/
inductive ReadError where
  /-- The text breaks the rules of JSON. -/
  | malformed
  /-- The text ends within a value. -/
  | truncated
  /-- A value is well-formed, but there should be another one in its place. -/
  | unsuitable
  deriving DecidableEq, Repr

/-- What was taken off the front of a text, and the characters after it. -/
abbrev Taken (α : Type) := α × List Char

namespace Reader

/-- White space between tokens. -/
def isBlank (c : Char) : Bool := c = ' ' || c = '\n' || c = '\t' || c = '\r'

/-- The characters from the first one on that is no white space. -/
def skipBlanks (cs : List Char) : List Char := cs.dropWhile isBlank

/-- Reads the characters of a fixed word. -/
def word : (expected : List Char) → List Char → Except ReadError (Taken Unit)
  | [], cs => .ok ((), cs)
  | _ :: _, [] => .error .truncated
  | e :: expected, c :: cs => if c = e then word expected cs else .error .malformed

/-! ## Strings -/

/-- The value of a digit in base sixteen, in either case. -/
def hexDigit? (c : Char) : Option Nat :=
  if c.isDigit then some (c.toNat - '0'.toNat)
  else if 'a' ≤ c ∧ c ≤ 'f' then some (c.toNat - 'a'.toNat + 10)
  else if 'A' ≤ c ∧ c ≤ 'F' then some (c.toNat - 'A'.toNat + 10)
  else none

/-- The value of four digits in base sixteen. -/
def hexValue? (a b c d : Char) : Option Nat := do
  return ((← hexDigit? a) * 16 + (← hexDigit? b)) * 256 + ((← hexDigit? c) * 16 + (← hexDigit? d))

/-- Reads four digits in base sixteen. The text has to go on for four bytes at least, and only then
do other characters count as a broken rule. -/
def codeUnit : List Char → Except ReadError (Taken Nat)
  | a :: b :: c :: d :: cs =>
    match hexValue? a b c d with
    | some n => .ok (n, cs)
    | none => .error .malformed
  | cs => .error (if (String.ofList cs).utf8ByteSize < 4 then .truncated else .malformed)

/-- Whether a code unit is the first of two that make up a character. -/
def isLeading (n : Nat) : Bool := 0xd800 ≤ n && n ≤ 0xdbff

/-- Whether a code unit is the second of two that make up a character. -/
def isTrailing (n : Nat) : Bool := 0xdc00 ≤ n && n ≤ 0xdfff

/-- Reads a character that is given by one code unit or by two. -/
def escapedUnits (cs : List Char) : Except ReadError (Taken Char) := do
  let (high, cs) ← codeUnit cs
  if isTrailing high then throw .malformed
  if isLeading high then
    match cs with
    | '\\' :: 'u' :: cs =>
      let (low, cs) ← codeUnit cs
      if isTrailing low then
        return (Char.ofNat ((high - 0xd800) * 0x400 + (low - 0xdc00) + 0x10000), cs)
      else throw .malformed
    | [] | ['\\'] => throw .truncated
    | _ => throw .malformed
  return (Char.ofNat high, cs)

/-- The character that a single character stands for after a backslash. -/
def escaped? (c : Char) : Option Char :=
  if c = '"' ∨ c = '\\' ∨ c = '/' then some c
  else if c = 'b' then some '\x08'
  else if c = 'f' then some '\x0c'
  else if c = 'n' then some '\n'
  else if c = 'r' then some '\r'
  else if c = 't' then some '\t'
  else none

/-- Reads what follows a backslash. -/
def escape : List Char → Except ReadError (Taken Char)
  | [] => .error .truncated
  | c :: cs =>
    if c = 'u' then escapedUnits cs
    else
      match escaped? c with
      | some e => .ok (e, cs)
      | none => .error .malformed

/-- A code unit that is read takes characters of the text. -/
theorem length_lt_of_codeUnit {cs rest : List Char} {n : Nat} (h : codeUnit cs = .ok (n, rest)) :
    rest.length < cs.length := by
  unfold codeUnit at h
  split at h
  · split at h
    · cases h
      simp only [List.length_cons]
      omega
    · cases h
  · cases h

/-- A character in escapes that is read takes characters of the text. -/
theorem length_lt_of_escapedUnits {cs rest : List Char} {c : Char}
    (h : escapedUnits cs = .ok (c, rest)) : rest.length < cs.length := by
  unfold escapedUnits at h
  cases hhigh : codeUnit cs with
  | error e => simp [hhigh, bind, Except.bind] at h
  | ok first =>
    obtain ⟨high, cs'⟩ := first
    have hcs := length_lt_of_codeUnit hhigh
    simp only [hhigh, bind, Except.bind] at h
    split at h
    · cases h
    · split at h
      · split at h
        · next tail =>
          cases hlow : codeUnit tail with
          | error e => simp [hlow] at h
          | ok second =>
            obtain ⟨low, cs''⟩ := second
            have htail := length_lt_of_codeUnit hlow
            simp only [hlow] at h
            split at h
            · simp only [pure, Except.pure, Except.ok.injEq, Prod.mk.injEq] at h
              rw [← h.2]
              simp only [List.length_cons] at hcs
              omega
            · cases h
        · cases h
        · cases h
        · cases h
      · simp only [pure, Except.pure, Except.ok.injEq, Prod.mk.injEq] at h
        rw [← h.2]
        exact hcs

/-- Reading an escape takes characters away. -/
theorem length_lt_of_escape {cs rest : List Char} {c : Char} (h : escape cs = .ok (c, rest)) :
    rest.length < cs.length := by
  unfold escape at h
  split at h
  · cases h
  · split at h
    · exact Nat.lt_succ_of_lt (length_lt_of_escapedUnits h)
    · split at h
      · cases h
        exact Nat.lt_succ_self _
      · cases h

/-- Reads a string after its opening quote. Control characters have to be escaped. -/
def stringTail (cs : List Char) : Except ReadError (Taken (List Char)) :=
  match cs with
  | [] => .error .truncated
  | c :: cs =>
    if c = '"' then .ok ([], cs)
    else if c = '\\' then
      match h : escape cs with
      | .error e => .error e
      | .ok (e, rest) =>
        have := length_lt_of_escape h
        (stringTail rest).map fun (tail, rest) => (e :: tail, rest)
    else if c.toNat < 0x20 then .error .malformed
    else (stringTail cs).map fun (tail, rest) => (c :: tail, rest)
termination_by cs.length

/-! ## Numbers -/

/-- The digits of a number as far as they count: a 64-bit word of leading digits, and the exponent
of ten of the last of them. -/
structure Numeral where
  /-- The leading digits. -/
  significand : Nat
  /-- The exponent of ten that goes with them. -/
  exponent : Int

namespace Numeral

/-- The leading digits with one more digit, if that fits into a word. -/
def extend? (significand : Nat) (digit : Char) : Option Nat :=
  let longer := 10 * significand + (digit.toNat - '0'.toNat)
  if longer < UInt64.size then some longer else none

/-- The numeral of some digits before the point. From the first digit on that does not fit, digits
count for the exponent only. -/
def ofWhole (significand : Nat) : List Char → Numeral
  | [] => ⟨significand, 0⟩
  | c :: cs =>
    match extend? significand c with
    | some longer => ofWhole longer cs
    | none => ⟨significand, (c :: cs).length⟩

/-- A numeral with digits after the point. From the first digit on that does not fit, digits do not
count. -/
def withFraction (n : Numeral) : List Char → Numeral
  | [] => n
  | c :: cs =>
    match extend? n.significand c with
    | some longer => withFraction ⟨longer, n.exponent - 1⟩ cs
    | none => n

/-- Whether a numeral is beyond the finite numbers. Its digits and its power of ten are both rounded
to a number, and so is their product. -/
def isTooLarge (n : Numeral) : Bool :=
  n.significand ≠ 0 && 0 ≤ n.exponent &&
    (308 < n.exponent ||
      ((Binary64.ofRatio false n.significand 1).mul
        (Binary64.ofRatio false (Nat.pow 10 n.exponent.toNat) 1)).isInfinite)

end Numeral

/-- The fault that a digit is missing before the given characters. -/
def missingDigit : List Char → ReadError
  | [] => .truncated
  | _ => .malformed

/-- Reads a point and the digits after it, or nothing. -/
def fraction : List Char → Except ReadError (Taken (Option (List Char)))
  | '.' :: cs =>
    let (digits, rest) := cs.span Char.isDigit
    if digits.isEmpty then .error (missingDigit rest) else .ok (some digits, rest)
  | cs => .ok (none, cs)

/-- Reads the sign and the digits of an exponent. -/
def signedDigits (cs : List Char) : Except ReadError (Taken Int) :=
  let (negative, cs) :=
    match cs with
    | '+' :: cs => (false, cs)
    | '-' :: cs => (true, cs)
    | cs => (false, cs)
  let (digits, rest) := cs.span Char.isDigit
  if digits.isEmpty then .error (missingDigit rest)
  else
    let value := digits.foldl (fun n c => 10 * n + (c.toNat - '0'.toNat)) 0
    .ok (if negative then -(value : Int) else value, rest)

/-- Reads an exponent, or nothing. -/
def exponent : List Char → Except ReadError (Taken (Option Int))
  | 'e' :: cs | 'E' :: cs => (signedDigits cs).map fun (value, rest) => (some value, rest)
  | cs => .ok (none, cs)

/-- Reads a number without its sign. Its value is given if it is an integer of 64 bits that is
written as one. A number beyond the finite ones breaks the rules. -/
def unsigned (cs : List Char) : Except ReadError (Taken (Option Nat)) := do
  let (whole, rest) := cs.span Char.isDigit
  match whole with
  | [] => throw (missingDigit rest)
  | '0' :: _ :: _ => throw .malformed
  | _ => pure ()
  let (places, rest) ← fraction rest
  let (power, rest) ← exponent rest
  let integer := Numeral.ofWhole 0 whole
  let numeral := integer.withFraction (places.getD [])
  let scaled : Numeral := ⟨numeral.significand, numeral.exponent + power.getD 0⟩
  if scaled.isTooLarge then throw .malformed
  if places.isNone && power.isNone && integer.exponent = 0 then
    return (some integer.significand, rest)
  return (none, rest)

/-! ## Values of a given type -/

/-- The fault of a value that was read without being asked for. -/
def unwanted {α : Type} : Except ReadError α → ReadError
  | .ok _ => .unsuitable
  | .error e => e

/-- The fault of a value of another type than the one asked for. Arrays and objects are rejected at
their first character, and all other values at their end. -/
def mismatch : List Char → ReadError
  | [] => .truncated
  | c :: cs =>
    if c = 'n' then unwanted (word "ull".toList cs)
    else if c = 't' then unwanted (word "rue".toList cs)
    else if c = 'f' then unwanted (word "alse".toList cs)
    else if c = '-' then unwanted (unsigned cs)
    else if c.isDigit then unwanted (unsigned (c :: cs))
    else if c = '"' then unwanted (stringTail cs)
    else if c = '[' ∨ c = '\x7b' then .unsuitable
    else .malformed

/-- Reads a truth value. -/
def truth (cs : List Char) : Except ReadError (Taken Bool) :=
  match skipBlanks cs with
  | 't' :: cs => (word "rue".toList cs).map fun (_, rest) => (true, rest)
  | 'f' :: cs => (word "alse".toList cs).map fun (_, rest) => (false, rest)
  | cs => .error (mismatch cs)

/-- Reads an integer from zero to the greatest of 64 bits. -/
def size (cs : List Char) : Except ReadError (Taken Nat) :=
  match skipBlanks cs with
  | [] => .error .truncated
  | c :: cs =>
    if c.isDigit then do
      let (value, rest) ← unsigned (c :: cs)
      match value with
      | some n => return (n, rest)
      | none => throw .unsuitable
    else .error (mismatch (c :: cs))

/-- Reads a string. -/
def string (cs : List Char) : Except ReadError (Taken String) :=
  match skipBlanks cs with
  | '"' :: cs => (stringTail cs).map fun (s, rest) => (String.ofList s, rest)
  | cs => .error (mismatch cs)

/-- Reads up to the next item of an array or an object, which `closing` ends: tells whether there is
one. A comma stands before each item but the first. -/
def another (closing : Char) (first : Bool) (cs : List Char) : Except ReadError (Taken Bool) :=
  match skipBlanks cs with
  | [] => .error .truncated
  | c :: rest =>
    if c = closing then .ok (false, rest)
    else if first then .ok (true, c :: rest)
    else if c = ',' then
      match skipBlanks rest with
      | [] => .error .truncated
      | c :: rest => if c = closing then .error .malformed else .ok (true, c :: rest)
    else .error .malformed

/-- Reads a mark that has to come next. -/
def mark (expected : Char) (cs : List Char) : Except ReadError (Taken Unit) :=
  match skipBlanks cs with
  | [] => .error .truncated
  | c :: rest => if c = expected then .ok ((), rest) else .error .malformed

end Reader

end Json

end HandTemplate
