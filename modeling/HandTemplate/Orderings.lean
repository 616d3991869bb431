/-!
# Orderings of a list

The orderings of a list are generated by taking each element in turn as the first and ordering the
others in the same way, so they come in the order of their elements' places in the list. Equal
elements are told apart by their places.
-/

namespace HandTemplate

namespace Orderings

variable {α : Type}

/-- Every element of a list together with the others in their order. -/
def selections : List α → List (α × List α)
  | [] => []
  | x :: xs => (x, xs) :: (selections xs).map fun chosen => (chosen.1, x :: chosen.2)

/-- Selecting an element leaves one element less. -/
theorem length_of_mem_selections {xs : List α} {chosen : α × List α} (h : chosen ∈ selections xs) :
    chosen.2.length + 1 = xs.length := by
  induction xs generalizing chosen with
  | nil => simp [selections] at h
  | cons x xs ih =>
    simp only [selections, List.mem_cons, List.mem_map] at h
    rcases h with rfl | ⟨inner, hinner, rfl⟩
    · rfl
    · simp [ih hinner]

/-- All orderings of a list. -/
def all (xs : List α) : List (List α) :=
  if xs.isEmpty then [[]]
  else (selections xs).attach.flatMap fun chosen => (all chosen.1.2).map (chosen.1.1 :: ·)
termination_by xs.length
decreasing_by
  have := length_of_mem_selections chosen.2
  omega

/-- The greatest number of orderings that is told apart from greater ones. -/
def countLimit : Nat := Nat.pow 2 128 - 1

/-- The number of orderings of `length` elements, or `countLimit` if it is greater than that. -/
def count (length : Nat) : Nat :=
  (List.range length).foldl (fun product i => min (product * (i + 1)) countLimit) 1

end Orderings

end HandTemplate
