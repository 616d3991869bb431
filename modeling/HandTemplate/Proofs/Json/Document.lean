import HandTemplate.Json
import HandTemplate.Json.Reader

/-!
# Reading JSON documents

Any JSON document can be read, whatever white space stands between its tokens and however its
strings are escaped. The fields of an object keep their order. A number that is written as an
integer and fits into a word stays one, and any other number becomes the nearest real number.
-/

namespace HandTemplate

namespace Json

namespace Reader

/-- The number with the given sign, digits before and after the point, and exponent. -/
def numberOf (negative : Bool) (whole : List Char) (places : Option (List Char))
    (power : Option Int) : Json :=
  let magnitude := Nat.ofDigitChars 10 whole 0
  let integer? :=
    if places.isNone && power.isNone then
      Number.ofInt? (if negative then -(magnitude : Int) else magnitude)
    else none
  match integer? with
  | some n => .integer n
  | none =>
    let places := places.getD []
    .real (.ofDecimal negative (Nat.ofDigitChars 10 (whole ++ places) 0)
      (power.getD 0 - places.length))

/-- Reads a number without its sign. -/
def unsignedNumber (negative : Bool) (cs : List Char) : Except ReadError (Taken Json) := do
  let (whole, rest) := cs.span Char.isDigit
  match whole with
  | [] => throw (missingDigit rest)
  | '0' :: _ :: _ => throw .malformed
  | _ => pure ()
  let (places, rest) ← fraction rest
  let (power, rest) ← exponent rest
  return (numberOf negative whole places power, rest)

/-- Reads a number. -/
def number : List Char → Except ReadError (Taken Json)
  | '-' :: cs => unsignedNumber true cs
  | cs => unsignedNumber false cs

/-- Reads the items of an array or the fields of an object, which `closing` ends, but no more than
`bound` of them. -/
def series {α : Type} (closing : Char) (item : List Char → Except ReadError (Taken α)) :
    (bound : Nat) → (first : Bool) → List Char → Except ReadError (Taken (List α))
  | 0, _, _ => .error .truncated
  | bound + 1, first, cs => do
    let (more, cs) ← another closing first cs
    if more then
      let (x, cs) ← item cs
      let (xs, cs) ← series closing item bound false cs
      return (x :: xs, cs)
    else return ([], cs)

/-- Reads a field of an object. -/
def field (value : List Char → Except ReadError (Taken Json)) (cs : List Char) :
    Except ReadError (Taken (String × Json)) := do
  let (name, cs) ← string cs
  let (_, cs) ← mark ':' cs
  let (document, cs) ← value cs
  return ((name, document), cs)

/-- Reads a value in which arrays and objects are nested in fewer than `levels` levels. -/
def value : (levels : Nat) → List Char → Except ReadError (Taken Json)
  | 0, _ => .error .truncated
  | levels + 1, cs =>
    match skipBlanks cs with
    | [] => .error .truncated
    | c :: cs =>
      if c = 'n' then (word "ull".toList cs).map fun (_, rest) => (.null, rest)
      else if c = 't' then (word "rue".toList cs).map fun (_, rest) => (.bool true, rest)
      else if c = 'f' then (word "alse".toList cs).map fun (_, rest) => (.bool false, rest)
      else if c = '"' then
        (stringTail cs).map fun (s, rest) => (.string (String.ofList s), rest)
      else if c = '[' then
        (series ']' (value levels) (cs.length + 1) true cs).map fun (items, rest) =>
          (.array items, rest)
      else if c = '\x7b' then
        (series '\x7d' (field (value levels)) (cs.length + 1) true cs).map fun (fields, rest) =>
          (.object fields, rest)
      else if c = '-' || c.isDigit then number (c :: cs)
      else .error .malformed

end Reader

/-- The document that a text is. It has no more levels, and no array or object in it more items,
than the text has characters. -/
def ofText (text : String) : Except ReadError Json := do
  let (document, rest) ← Reader.value (text.length + 1) text.toList
  if (Reader.skipBlanks rest).isEmpty then return document else throw .malformed

end Json

end HandTemplate
