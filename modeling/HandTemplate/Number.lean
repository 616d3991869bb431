/-!
# Integers of the template language

The language's integers are 64-bit signed words. Its arithmetic never wraps around: a sum or a
product that does not fit is refused. Main statement: `ofInt?_eq_some_iff`, by which a checked
operation has a result exactly when the exact result fits, and then has that result.
-/

namespace HandTemplate

namespace Number

/-- The word of value `n`, if there is one. -/
def ofInt? (n : Int) : Option Int64 :=
  if Int64.minValue.toInt ≤ n ∧ n ≤ Int64.maxValue.toInt then some (Int64.ofInt n) else none

/-- The sum of two words, unless it leaves their range. -/
def add? (a b : Int64) : Option Int64 := ofInt? (a.toInt + b.toInt)

/-- The product of two words, unless it leaves their range. -/
def mul? (a b : Int64) : Option Int64 := ofInt? (a.toInt * b.toInt)

/-- The decimal digits of a word, with a minus sign before a negative one. -/
def text (a : Int64) : String := toString a.toInt

/-- The number of integers from `first` to `last`, both included. -/
def count (first last : Int64) : Nat := (last.toInt - first.toInt + 1).toNat

/-- The integers from `first` to `last` in ascending order, none if `last` lies before `first`. -/
def range (first last : Int64) : List Int64 :=
  (List.range (count first last)).map fun i : Nat => Int64.ofInt (first.toInt + i)

/-- A checked word is the one whose value was asked for. -/
theorem ofInt?_eq_some_iff {n : Int} {a : Int64} : ofInt? n = some a ↔ a.toInt = n := by
  unfold ofInt?
  constructor
  · intro h
    split at h
    · next hn =>
      cases h
      exact Int64.toInt_ofInt_of_le hn.1 (Int.lt_of_le_of_lt hn.2 (by decide))
    · cases h
  · rintro rfl
    rw [if_pos ⟨a.minValue_le_toInt, a.toInt_le⟩, Int64.ofInt_toInt]

/-- There are as many integers in a range as are counted. -/
@[simp] theorem length_range (first last : Int64) :
    (range first last).length = count first last := by simp [range]

end Number

end HandTemplate
