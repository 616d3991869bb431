import Mathlib
import HandTemplate.Orderings

/-!
# How many orderings there are

A list of `n` elements has `n!` orderings. The number that is computed beforehand is `n!` as well,
as far as such numbers are told apart; so a limit below `countLimit` that allows the computed number
allows the orderings (`length_all_le`).
-/

namespace HandTemplate

namespace Orderings

variable {α : Type}

/-- Every element is selected once. -/
theorem length_selections (xs : List α) : (selections xs).length = xs.length := by
  induction xs with
  | nil => rfl
  | cons x xs ih => simp [selections, ih]

/-- There are as many orderings as permutations of the places. -/
theorem length_all (xs : List α) : (all xs).length = xs.length.factorial := by
  fun_induction all xs with
  | case1 xs hempty =>
    rw [List.isEmpty_iff.mp hempty]
    rfl
  | case2 xs hne ih =>
    have hpos : 0 < xs.length := List.length_pos_iff.mpr (by simpa using hne)
    -- Every selection leaves one element less, which has by induction so many orderings.
    have hrest : ∀ chosen ∈ (selections xs).attach,
        ((all chosen.1.2).map (chosen.1.1 :: ·)).length = (xs.length - 1).factorial := by
      intro chosen _
      have hlength := length_of_mem_selections chosen.2
      rw [List.length_map, ih chosen]
      congr 1
      omega
    rw [List.length_flatMap, List.map_congr_left hrest, List.map_const', List.sum_replicate_nat,
      List.length_attach, length_selections, Nat.mul_factorial_pred (by omega)]

/-- The computed number is the number of permutations, as far as such numbers are told apart. -/
theorem count_eq (length : Nat) : count length = min length.factorial countLimit := by
  unfold count
  generalize hlimit : countLimit = limit
  have hpos : 1 ≤ limit := by
    rw [← hlimit]
    decide
  -- A product that has reached the limit stays there, for no factor is zero.
  induction length with
  | zero => simp [hpos]
  | succ length ih =>
    rw [List.range_succ, List.foldl_append, List.foldl_cons, List.foldl_nil, ih,
      Nat.factorial_succ, Nat.mul_comm (length + 1)]
    rcases Nat.le_total length.factorial limit with hle | hle
    · rw [Nat.min_eq_left hle]
    · have hmore : ∀ k, limit ≤ k → limit ≤ k * (length + 1) := fun k hk =>
        Nat.le_trans hk (Nat.le_mul_of_pos_right k (Nat.succ_pos length))
      rw [Nat.min_eq_right hle, Nat.min_eq_right (hmore limit (Nat.le_refl limit)),
        Nat.min_eq_right (hmore _ hle)]

/-- What allows the computed number allows the orderings. -/
theorem length_all_le {xs : List α} {limit : Nat} (hlimit : limit < countLimit)
    (h : count xs.length ≤ limit) : (all xs).length ≤ limit := by
  rw [count_eq] at h
  rw [length_all]
  omega

end Orderings

end HandTemplate
