import HandTemplate.Binary64

/-!
# The shortest decimal of a number

A finite number other than zero is written with as few digits as possible such that no other number
is nearer to what is written, and of the decimals with that many digits with the one nearest to it.
The search is exact: on each decimal grid, from coarse to fine, it tests the two neighbours of the
number, and the first grid with a neighbour that reads back wins.
-/

namespace HandTemplate

/-- A decimal number without a sign. -/
structure Decimal where
  /-- All its digits, read as one integer. -/
  digits : Nat
  /-- The exponent of ten that goes with `digits`. -/
  exponent : Int
  deriving DecidableEq, Repr

/-- Which of two equally near candidates is taken. -/
inductive TieRule where
  /-- The one with the even last digit. -/
  | even
  /-- The larger one. -/
  | up
  deriving DecidableEq, Repr

namespace Binary64

/-- Where a magnitude lies and which decimals read back as it, on a common scale: a decimal of `c`
units on a grid stands for `c * unit`. -/
structure Grid where
  /-- The width of one step of the grid. -/
  unit : Nat
  /-- The number itself. -/
  value : Nat
  /-- The least decimal that reads back. -/
  low : Nat
  /-- The greatest decimal that reads back. -/
  high : Nat
  /-- Whether the two ends themselves read back. -/
  closed : Bool

namespace Grid

/-- The grid of step `10 ^ step` around a finite number. The ends lie halfway to the two
neighbouring numbers, of which the lower one is nearer at a power of two. -/
def of (x : Binary64) (step : Int) : Grid :=
  let scale := x.exponent - 2
  let shared := Nat.pow 2 scale.toNat * Nat.pow 10 (-step).toNat
  let below := if x.significand = Nat.pow 2 52 ∧ -1074 < x.exponent then 1 else 2
  { unit := Nat.pow 10 step.toNat * Nat.pow 2 (-scale).toNat
    value := 4 * x.significand * shared
    low := (4 * x.significand - below) * shared
    high := (4 * x.significand + 2) * shared
    closed := x.significand % 2 = 0 }

/-- Whether the decimal of `count` units reads back as the number. -/
def readsBack (g : Grid) (count : Nat) : Bool :=
  if g.closed then g.low ≤ count * g.unit && count * g.unit ≤ g.high
  else g.low < count * g.unit && count * g.unit < g.high

/-- The nearest of the number's two neighbours on the grid, among those that read back. -/
def nearest? (g : Grid) (tie : TieRule) : Option Nat :=
  let floor := g.value / g.unit
  let twice := 2 * (g.value % g.unit)
  let floorFirst := twice < g.unit || twice = g.unit && tie = .even && floor % 2 = 0
  let order := if floorFirst then [floor, floor + 1] else [floor + 1, floor]
  order.find? g.readsBack

end Grid

/-- A step of ten so coarse that the number is below one unit of its grid. -/
def coarsestStep (x : Binary64) : Int :=
  (x.significand.log2 + 1 + x.exponent) * 30103 / 100000 + 1

/-- The shortest decimal that reads back as a finite number other than zero. Seventeen digits always
suffice, so the first twenty grids hold one. -/
def shortest (x : Binary64) (tie : TieRule) : Decimal :=
  let steps := (List.range 20).map fun i : Nat => x.coarsestStep - i
  let found := steps.findSome? fun step => ((Grid.of x step).nearest? tie).map (⟨·, step⟩)
  found.getD ⟨0, 0⟩

end Binary64

end HandTemplate
