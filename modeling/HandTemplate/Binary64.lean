/-!
# Binary floating-point numbers

A real number of the template language is a binary64 number of IEEE 754, held as its 64 bits: a
sign, eleven bits of exponent and 52 bits of fraction. Its magnitude, where it is finite, is exactly
`significand * 2 ^ exponent`. Nothing here computes with rounded numbers; `ofRatio` is the one place
where a rational number is rounded, to the nearest number and, halfway between two, to the one whose
fraction is even.
-/

namespace HandTemplate

/-- A binary64 number. -/
structure Binary64 where
  /-- The 64 bits, the sign first. -/
  bits : UInt64
  deriving DecidableEq, Repr

namespace Binary64

/-- The word of a number with the given sign whose other 63 bits are `magnitude`. -/
def ofMagnitude (negative : Bool) (magnitude : Nat) : Binary64 :=
  ⟨UInt64.ofNat ((if negative then Nat.pow 2 63 else 0) + magnitude)⟩

/-- The 63 bits that follow the sign. -/
def magnitude (x : Binary64) : Nat := x.bits.toNat % Nat.pow 2 63

/-- Whether the sign bit is set. -/
def isNegative (x : Binary64) : Bool := Nat.pow 2 63 ≤ x.bits.toNat

/-- The least magnitude that is not finite. -/
def infiniteMagnitude : Nat := 2047 * Nat.pow 2 52

/-- The infinity of the given sign. -/
def infinity (negative : Bool) : Binary64 := ofMagnitude negative infiniteMagnitude

/-- The number that is no number. -/
def nan : Binary64 := ofMagnitude false (infiniteMagnitude + Nat.pow 2 51)

/-- Whether this is no number. -/
def isNaN (x : Binary64) : Bool := infiniteMagnitude < x.magnitude

/-- Whether this is an infinity. -/
def isInfinite (x : Binary64) : Bool := x.magnitude = infiniteMagnitude

/-- The integer whose product with `2 ^ exponent` is the magnitude of a finite number. -/
def significand (x : Binary64) : Nat :=
  if x.magnitude < Nat.pow 2 52 then x.magnitude else Nat.pow 2 52 + x.magnitude % Nat.pow 2 52

/-- The exponent of two that goes with `significand`. -/
def exponent (x : Binary64) : Int := (max (x.magnitude / Nat.pow 2 52) 1 : Nat) - 1075

/-- Whether two numbers are equal as numbers: both zeros are, and what is no number equals nothing.
-/
def same (x y : Binary64) : Bool :=
  !x.isNaN && !y.isNaN && (x = y || x.magnitude = 0 && y.magnitude = 0)

/-- The quotient `num / den` rounded to an integer, to the even one of two equally near. -/
def roundHalfEven (num den : Nat) : Nat :=
  let quotient := num / den
  let twice := 2 * (num % den)
  if twice < den ∨ twice = den ∧ quotient % 2 = 0 then quotient else quotient + 1

/-- The exponent of two at which `num / den` has a significand of 53 bits, or the least exponent
there is if the quotient is too small for that. -/
def scaleOf (num den : Nat) : Int :=
  let top : Int := num.log2 - den.log2
  let reaches : Bool :=
    if 0 ≤ top then den * Nat.pow 2 top.toNat ≤ num else den ≤ num * Nat.pow 2 (-top).toNat
  max ((if reaches then top else top - 1) - 52) (-1074)

/-- The number nearest to `num / den`, an infinity if that is beyond all finite numbers. -/
def ofRatio (negative : Bool) (num den : Nat) : Binary64 :=
  if num = 0 then ofMagnitude negative 0
  else
    let scale := scaleOf num den
    let rounded :=
      if 0 ≤ scale then roundHalfEven num (den * Nat.pow 2 scale.toNat)
      else roundHalfEven (num * Nat.pow 2 (-scale).toNat) den
    ofMagnitude negative (min ((scale + 1074).toNat * Nat.pow 2 52 + rounded) infiniteMagnitude)

/-- The number nearest to `digits * 10 ^ exponent`. -/
def ofDecimal (negative : Bool) (digits : Nat) (exponent : Int) : Binary64 :=
  if 0 ≤ exponent then ofRatio negative (digits * Nat.pow 10 exponent.toNat) 1
  else ofRatio negative digits (Nat.pow 10 (-exponent).toNat)

/-- The product of two magnitudes, where both are finite. -/
def mul (x y : Binary64) : Binary64 :=
  let product := x.significand * y.significand
  let scale := x.exponent + y.exponent
  if 0 ≤ scale then ofRatio false (product * Nat.pow 2 scale.toNat) 1
  else ofRatio false product (Nat.pow 2 (-scale).toNat)

end Binary64

end HandTemplate
