import Mathlib
import HandTemplate.Proofs.Expansion.Failing
import HandTemplate.Proofs.Expansion.Frame

/-!
# Loops over ranges

A loop over a range literal walks the integers of the range without making their list. It does
nothing else than a loop over a name that is bound to that list: the outcome and the state
afterwards are the same, also when the range ends with the greatest integer. A range of more
integers than the limit allows is refused before the first turn. Main statement: `runLoop_range`.
-/

namespace HandTemplate

namespace Number

/-- No integer of a range leaves the words. -/
theorem toInt_ofInt_add {first last : Int64} {i : Nat} (hi : i < count first last) :
    (Int64.ofInt (first.toInt + i)).toInt = first.toInt + i := by
  have hlower := first.le_toInt
  have hupper := last.toInt_lt
  unfold count at hi
  exact Int64.toInt_ofInt_of_le (by omega) (by omega)

/-- The integers of a range are those from its first to its last. -/
theorem mem_range {first last n : Int64} : n ∈ range first last ↔ first ≤ n ∧ n ≤ last := by
  rw [Int64.le_iff_toInt_le, Int64.le_iff_toInt_le, range, List.mem_map]
  constructor
  · rintro ⟨i, hi, rfl⟩
    rw [List.mem_range] at hi
    rw [toInt_ofInt_add hi]
    unfold count at hi
    omega
  · rintro ⟨hfirst, hlast⟩
    have hi : (n.toInt - first.toInt).toNat < count first last := by
      unfold count
      omega
    -- The distance from the first integer is the place of the integer in the range.
    have hsum : first.toInt + ((n.toInt - first.toInt).toNat : Int) = n.toInt := by omega
    exact ⟨_, List.mem_range.mpr hi, by rw [hsum, Int64.ofInt_toInt]⟩

/-- The integers of a range ascend. -/
theorem range_ascending (first last : Int64) : (range first last).Pairwise (· < ·) := by
  rw [range, List.pairwise_map]
  refine List.pairwise_lt_range.imp_of_mem fun hi hj hlt => ?_
  rw [Int64.lt_iff_toInt_lt, toInt_ofInt_add (List.mem_range.mp hi),
    toInt_ofInt_add (List.mem_range.mp hj)]
  omega

/-- There is one ascending list of the integers from `first` to `last`. -/
theorem eq_range {first last : Int64} {ns : List Int64} (hascending : ns.Pairwise (· < ·))
    (hmem : ∀ n, n ∈ ns ↔ first ≤ n ∧ n ≤ last) : ns = range first last :=
  hascending.eq_of_mem_iff (range_ascending first last) fun n => (hmem n).trans mem_range.symm

end Number

namespace Expansion

variable {m : Expansion}

/-- The value of a range is the list of its integers if the limit allows so many. -/
theorem exprValue_range {first last : Int64} {p : Position} {fallback : Fallback} :
    exprValue (.range first last p) fallback m =
      if m.config.maxItems < Number.count first last then
        .error ⟨.tooMany "range" (Number.count first last) m.config.maxItems, p⟩ m
      else .ok (.list ((Number.range first last).map .integer)) m := by
  rw [exprValue_interval]
  unfold Builtin.interval checkCount
  split <;> rfl

/-- A loop over a range literal, where `ns` are the integers of the range. If the limit allows so
many of them, the loop is the same step as a loop over any name that is bound to their list. If the
limit does not, the loop fails and leaves the state as it is, whatever its body: for the number of
integers at the place of the literal, or for its own depth if no level is left for it. -/
theorem runLoop_range {first last : Int64} {ns : List Int64} (hascending : ns.Pairwise (· < ·))
    (hmem : ∀ n, n ∈ ns ↔ first ≤ n ∧ n ≤ last) (m : Expansion) (binding : Binding)
    (body : List Statement) (position p : Position) :
    (ns.length ≤ m.config.maxItems →
      ∀ (name : String) (q : Position), m.valueOf? name = some (.list (ns.map .integer)) →
        runLoop binding (.range first last p) body position m =
          runLoop binding (.identifier name q) body position m) ∧
      (m.config.maxItems < ns.length →
        runLoop binding (.range first last p) body position m =
          if m.depth < m.config.maxDepth then
            .error ⟨.tooMany "range" ns.length m.config.maxItems, p⟩ m
          else .error ⟨.tooDeep m.config.maxDepth, position⟩ m) := by
  -- The list is the one that the range walks over.
  obtain rfl := Number.eq_range hascending hmem
  rw [Number.length_range]
  constructor
  · intro hcount name q hname
    have hrange : exprValue (.range first last p) .nothing m.deeper =
        .ok (.list ((Number.range first last).map .integer)) m.deeper := by
      rw [exprValue_range]
      exact if_neg (Nat.not_lt.mpr hcount)
    have hlist : exprValue (.identifier name q) .nothing m.deeper =
        .ok (.list ((Number.range first last).map .integer)) m.deeper := exprValue_identifier hname
    -- Once its level is claimed, either loop takes its turns over the same list.
    refine nest_congr ?_ position
    rw [forEach_of_value hrange rfl, forEach_of_value hlist rfl]
  -- One integer too many stops the loop at its source, unless it has stopped for its depth before.
  · intro hcount
    have hrange : exprValue (.range first last p) .nothing m.deeper =
        .error ⟨.tooMany "range" (Number.count first last) m.config.maxItems, p⟩ m.deeper := by
      rw [exprValue_range]
      exact if_pos hcount
    split
    next hdepth => exact nest_of_error hdepth (forEach_of_error hrange _)
    next hdepth => exact nest_tooDeep _ (Nat.le_of_not_lt hdepth)

/-- The last two integers: the walk ends after the greatest one, as the walk over their list does,
and the body, which binds the name of the list anew, runs twice. -/
theorem runLoop_range_greatest :
    let m : Expansion :=
      { Expansion.new {} with scopes := [(outermostScope .empty).insert "ns"
          (.list [.integer (Int64.maxValue - 1), .integer Int64.maxValue])] }
    let body : List Statement :=
      [.assign (.name "ns") (.number 1 ⟨2, 6⟩) ⟨2, 1⟩,
        .call "single" [.identifier "n" ⟨3, 8⟩] ⟨3, 1⟩]
    runLoop (.name "n") (.range (Int64.maxValue - 1) Int64.maxValue ⟨1, 14⟩) body ⟨1, 1⟩ m =
        runLoop (.name "n") (.identifier "ns" ⟨1, 14⟩) body ⟨1, 1⟩ m ∧
      (after (runLoop (.name "n") (.range (Int64.maxValue - 1) Int64.maxValue ⟨1, 14⟩) body ⟨1, 1⟩)
        m).variations.toList.map Variation.tiles =
          [["9223372036854775806"], ["9223372036854775807"]] := by
  intro m body
  -- The list of the last two words is their range.
  have hascending : [Int64.maxValue - 1, Int64.maxValue].Pairwise (· < ·) := by decide
  have hmem : ∀ n, n ∈ [Int64.maxValue - 1, Int64.maxValue] ↔
      Int64.maxValue - 1 ≤ n ∧ n ≤ Int64.maxValue := by
    intro n
    rw [show [Int64.maxValue - 1, Int64.maxValue] =
      Number.range (Int64.maxValue - 1) Int64.maxValue by decide]
    exact Number.mem_range
  have hloops := (runLoop_range hascending hmem m (.name "n") body ⟨1, 1⟩ ⟨1, 14⟩).1 (by decide)
    "ns" ⟨1, 14⟩ (by cbv)
  exact ⟨hloops, by cbv⟩

/-- The loop has no level left, so that it does not come to its source. -/
theorem runLoop_range_without_level :
    let m := Expansion.new { maxDepth := 0, maxItems := 2 }
    m.config.maxItems < (Number.range 1 9).length ∧
      ¬ Fails (runLoop (.name "x") (.range 1 9 ⟨2, 27⟩) [] ⟨2, 14⟩) m
        ⟨.tooMany "range" 9 2, ⟨2, 27⟩⟩ := by
  refine ⟨by decide, ?_⟩
  rintro ⟨_, h⟩
  cases h

end Expansion

end HandTemplate
