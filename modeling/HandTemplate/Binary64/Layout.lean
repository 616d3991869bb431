import HandTemplate.Binary64.Shortest

/-!
# Written forms of a number

Every written form starts from the shortest decimal and differs in its layout only: where positional
notation ends, whether a whole number keeps a zero after the point, and how an exponent and the
values that are not finite are spelled. Three layouts are in use: `plain` within messages and tile
codes, `interchange` in JSON, and `inspected` in listings of tokens and syntax trees.
-/

namespace HandTemplate

/-- The decisions that make up a written form. -/
structure Layout where
  /-- Which of two equally near shortest decimals is taken. -/
  tie : TieRule
  /-- Whether a number whose first digit counts units of `10 ^ exponent` is written positionally. -/
  positional : Int → Bool
  /-- Whether a whole number is followed by a point and a zero in positional notation. -/
  keepsPoint : Bool
  /-- What stands before an exponent that is not negative. -/
  exponentSign : String
  /-- What is written for the number that is no number. -/
  nan : String
  /-- What is written for an infinity, after its sign. -/
  infinity : String

namespace Layout

/-- Always positional, with no needless point. -/
def plain : Layout :=
  { tie := .up, positional := fun _ => true, keepsPoint := false, exponentSign := ""
    nan := "NaN", infinity := "inf" }

/-- Positional from `0.00001` up to below `10 ^ 16`, and always recognisable as a real number. -/
def interchange : Layout :=
  { tie := .even, positional := fun e => -5 ≤ e && e < 16, keepsPoint := true, exponentSign := "+"
    nan := "NaN", infinity := "inf" }

/-- Positional from `0.0001` up to below `10 ^ 16`, and always recognisable as a real number. -/
def inspected : Layout :=
  { tie := .up, positional := fun e => -4 ≤ e && e < 16, keepsPoint := true, exponentSign := ""
    nan := "NaN", infinity := "inf" }

/-- Digits with a point such that `exponent` of them follow it, or as many zeros as the exponent
says if it is positive. -/
def writePositional (layout : Layout) (digits : String) (exponent : Int) : String :=
  let zeros (n : Nat) : String := String.ofList (List.replicate n '0')
  if 0 ≤ exponent then
    digits ++ zeros exponent.toNat ++ (if layout.keepsPoint then ".0" else "")
  else
    let places := (-exponent).toNat
    let padded := (zeros (places + 1 - digits.length) ++ digits).toList
    String.ofList (padded.take (padded.length - places)) ++ "." ++
      String.ofList (padded.drop (padded.length - places))

/-- The first digit, the others after a point, and the exponent of ten of the first digit. -/
def writeScientific (layout : Layout) (digits : String) (exponent : Int) : String :=
  let first := String.ofList (digits.toList.take 1)
  let others := digits.toList.drop 1
  let fraction := if others.isEmpty then "" else "." ++ String.ofList others
  let sign := if exponent < 0 then "" else layout.exponentSign
  first ++ fraction ++ "e" ++ sign ++ toString exponent

/-- The written form of a finite magnitude. -/
def writeMagnitude (layout : Layout) (x : Binary64) : String :=
  if x.magnitude = 0 then if layout.keepsPoint then "0.0" else "0"
  else
    let decimal := x.shortest layout.tie
    let digits := toString decimal.digits
    let exponent := decimal.exponent + digits.length - 1
    if layout.positional exponent then layout.writePositional digits decimal.exponent
    else layout.writeScientific digits exponent

/-- The written form of a number. -/
def write (layout : Layout) (x : Binary64) : String :=
  if x.isNaN then layout.nan
  else
    (if x.isNegative then "-" else "") ++
      (if x.isInfinite then layout.infinity else layout.writeMagnitude x)

end Layout

end HandTemplate
