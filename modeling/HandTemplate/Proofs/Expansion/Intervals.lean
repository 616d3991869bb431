import HandTemplate.Proofs.Expansion.Operations
import HandTemplate.Proofs.Expansion.Ranges

/-!
# Consecutive integers

A range and a sequence of tiles count up word by word, and neither leaves the words on its way: a
range has as many integers as there are between its bounds, whichever words these are, and a
sequence may end with the greatest word. Main statements: `interval_exact` and `sequence_exact`.
-/

namespace HandTemplate

open Outcome (bind_eq_error)

variable {config : Config} {p : Position}

namespace Number

variable {first last : Int64}

/-- A range has as many integers as there are between its bounds. -/
theorem count_eq_card (first last : Int64) :
    count first last = (Finset.Icc first.toInt last.toInt).card := by
  rw [Int.card_Icc, count]
  congr 1
  omega

/-- There are no more integers in a range than there are words. -/
theorem count_le (first last : Int64) : count first last ≤ 2 ^ 64 := by
  have hfirst := first.le_toInt
  have hlast := last.toInt_lt
  unfold count
  omega

/-- The integers of a range count up from its first one. -/
theorem toInt_getElem_range {i : Nat} (hi : i < (range first last).length) :
    ((range first last)[i]).toInt = first.toInt + i := by
  have hcount := hi
  rw [length_range] at hcount
  simp only [range, List.getElem_map, List.getElem_range]
  exact toInt_ofInt_add hcount

/-- There is one list of words that counts up from `first` to `last`. -/
theorem eq_range_of_getElem {ns : List Int64} (hlength : ns.length = count first last)
    (hns : ∀ i (hi : i < ns.length), (ns[i]).toInt = first.toInt + i) : ns = range first last := by
  refine List.ext_getElem (by rw [hlength, length_range]) fun i hi hi' => ?_
  rw [← Int64.toInt_inj, hns i hi, toInt_getElem_range hi']

/-- A range ends with its last integer unless that lies before its first one. -/
theorem getLast?_range (first last : Int64) :
    (range first last).getLast? = if last < first then none else some last := by
  have hlength := length_range first last
  unfold count at hlength
  rw [List.getLast?_eq_getElem?]
  split
  next h =>
    rw [Int64.lt_iff_toInt_lt] at h
    rw [List.getElem?_eq_none_iff]
    omega
  next h =>
    rw [Int64.lt_iff_toInt_lt] at h
    rw [List.getElem?_eq_some_iff]
    refine ⟨by omega, ?_⟩
    rw [← Int64.toInt_inj, toInt_getElem_range]
    omega

end Number

/-! ## Ranges -/

namespace Builtin

open Expansion in
/-- The integers from one word to another. Their number is computed exactly, for the least and the
greatest word as well, where it is `2 ^ 64`. If the limit allows so many, then the range is the list
that ascends from the first of them by one at each place to the last, and is empty if the last lies
before the first. If not, then their number is reported. The builtin does the same with its two
arguments, and so does a range literal. -/
theorem interval_exact (first last : Int64) (config : Config) (p : Position) :
    Number.count first last = (Finset.Icc first.toInt last.toInt).card ∧
    Number.count first last ≤ 2 ^ 64 ∧
    (∀ v, interval first last config p = .ok v ↔
      Number.count first last ≤ config.maxItems ∧ ∃ ns : List Int64, v = .list (ns.map .integer) ∧
        ns.length = Number.count first last ∧ ns.Pairwise (· < ·) ∧
        (∀ i (hi : i < ns.length), (ns[i]).toInt = first.toInt + i) ∧
        ns.getLast? = if last < first then none else some last) ∧
    (∀ e, interval first last config p = .error e ↔ config.maxItems < Number.count first last ∧
      e = ⟨.tooMany "range" (Number.count first last) config.maxItems, p⟩) ∧
    range.apply config p [.integer first, .integer last] = interval first last config p ∧
    ∀ (m : Expansion) (fallback : Fallback), exprValue (.range first last p) fallback m =
      settle m (interval first last m.config p) := by
  refine ⟨Number.count_eq_card first last, Number.count_le first last, fun v => ?_, fun e => ?_,
    rfl, fun m fallback => exprValue_interval first last p fallback m⟩
  -- A range has a value exactly within the limit, and the list is determined by its length and its
  -- items.
  · rw [interval_eq_ok]
    refine and_congr_right fun _ => ⟨?_, ?_⟩
    · rintro rfl
      exact ⟨_, rfl, Number.length_range .., Number.range_ascending .., fun i hi =>
        Number.toInt_getElem_range hi, Number.getLast?_range ..⟩
    · rintro ⟨ns, rfl, hlength, -, hns, -⟩
      rw [Number.eq_range_of_getElem hlength hns]
  · unfold interval
    -- The only fault of a range is its number of integers.
    rw [bind_eq_error, checkCount_eq_error]
    constructor
    · rintro (⟨hcount, rfl⟩ | ⟨_, -, h⟩)
      · exact ⟨hcount, rfl⟩
      · cases h
    · rintro ⟨hcount, rfl⟩
      exact .inl ⟨hcount, rfl⟩

/-- All words are a range, of `2 ^ 64` integers; the greatest word ends a range of two. -/
example : Number.count Int64.minValue Int64.maxValue = 2 ^ 64 ∧
    interval (Int64.maxValue - 1) Int64.maxValue { maxItems := 2 } .start =
      .ok (.list [.integer 9223372036854775806, .integer 9223372036854775807]) :=
  ⟨by decide, by rfl⟩

end Builtin

/-! ## Sequences -/

namespace Value

variable {v : Value} {e : ExpansionFault}

/-- What is refused as an integer has the wrong type. -/
theorem toInteger_eq_error (h : v.toInteger p = .error e) : ∃ fault, e = ⟨.wrongType fault, p⟩ := by
  cases v <;> cases h <;> exact ⟨_, rfl⟩

/-- What is refused as a tile code has the wrong type. -/
theorem toTileCode_eq_error (h : v.toTileCode p = .error e) :
    ∃ fault, e = ⟨.wrongType fault, p⟩ := by
  cases v <;> cases h <;> exact ⟨_, rfl⟩

end Value

namespace Builtin

/-- Three values are the arguments of a sequence of `count` tiles from the number `first` on, in a
suit that is written `code`. -/
structure Sequences (p : Position) (start suit length : Value) (first : Int64) (code : String)
    (count : Nat) : Prop where
  /-- The first number is an integer. -/
  start : start = .integer first
  /-- The suit can be part of a tile code. -/
  suit : suit.toTileCode p = .ok code
  /-- The length is an integer that is not negative. -/
  length : ∃ n : Int64, length = .integer n ∧ n.toInt = count

variable {start suit length : Value}

/-- A sequence fails for its types unless its values are the arguments of one. -/
theorem exists_wrongType
    (h : ¬ ∃ first code count, Sequences p start suit length first code count) :
    ∃ fault, (group .sequence).apply config p [start, suit, length] =
      .error ⟨.wrongType fault, p⟩ := by
  change ∃ fault, sequenceOf config p start suit length = _
  unfold sequenceOf
  -- The three values are looked at in order, and the first that does not fit is refused for its
  -- type.
  cases hstart : start.toInteger p with
  | error e =>
    obtain ⟨fault, rfl⟩ := Value.toInteger_eq_error hstart
    exact ⟨fault, rfl⟩
  | ok first =>
    cases hsuit : suit.toTileCode p with
    | error e =>
      obtain ⟨fault, rfl⟩ := Value.toTileCode_eq_error hsuit
      exact ⟨fault, rfl⟩
    | ok code =>
      cases hlength : length.toInteger p with
      | error e =>
        obtain ⟨fault, rfl⟩ := Value.toInteger_eq_error hlength
        exact ⟨fault, rfl⟩
      | ok n =>
        -- Three values that fit are no arguments only for a negative length.
        have hnegative : n.toInt < 0 := by
          by_contra hnonneg
          exact h ⟨first, code, n.toInt.toNat, Value.toInteger_eq_ok.mp hstart, hsuit, n,
            Value.toInteger_eq_ok.mp hlength, by omega⟩
        refine ⟨.negativeLength n, ?_⟩
        change (if n.toInt < 0 then _ else _) = _
        rw [if_pos hnegative]
        rfl

/-- What a sequence gives for its arguments. -/
theorem sequence_apply {first : Int64} {code : String} {count : Nat}
    (h : Sequences p start suit length first code count) :
    (group .sequence).apply config p [start, suit, length] =
      if config.maxItems < count then .error ⟨.tooMany "sequence" count config.maxItems, p⟩
      else if count = 0 ∨ first.toInt + count - 1 ≤ Int64.maxValue.toInt then
        .ok (.group ⟨.sequence, (List.range count).map fun i : Nat =>
          toString (first.toInt + i) ++ code⟩)
      else .error ⟨.overflow, p⟩ := by
  obtain ⟨rfl, hsuit, n, rfl, hn⟩ := h
  change (suit.toTileCode p >>= _) = _
  rw [hsuit]
  change (if n.toInt < 0 then _ else checkCount "sequence" n.toInt.toNat config p >>= _) = _
  rw [if_neg (by omega), hn, Int.toNat_natCast, TileGroup.ascending?_eq]
  unfold checkCount
  -- The limit is checked before the tiles are made, and these are made unless the last number is no
  -- word.
  by_cases hcount : config.maxItems < count
  · rw [if_pos hcount, if_pos hcount]
    rfl
  rw [if_neg hcount, if_neg hcount]
  by_cases hlast : count = 0 ∨ first.toInt + count - 1 ≤ Int64.maxValue.toInt
  · rw [if_pos hlast, if_pos hlast]
    rfl
  · rw [if_neg hlast, if_neg hlast]
    rfl

/-- A sequence from three values. It has a value exactly if the first and the last of them are
integers, the middle one can be part of a tile code, the length is not negative and within the
limit, and the number of the last tile, if there is one, is a word, though the next number may be
none. The value is then a group of so many tiles, each with the number that its place is away from
the first and with the suit. Otherwise it fails, for the types of the values and a negative length
first, then for the limit, and last for the overflow. -/
theorem sequence_exact (config : Config) (p : Position) (start suit length : Value) :
    (∀ v, (group .sequence).apply config p [start, suit, length] = .ok v ↔
      ∃ first code count tiles, Sequences p start suit length first code count ∧
        count ≤ config.maxItems ∧
        (count = 0 ∨ first.toInt + count - 1 ≤ Int64.maxValue.toInt) ∧
        v = .group ⟨.sequence, tiles⟩ ∧ tiles.length = count ∧
        ∀ i (hi : i < tiles.length), tiles[i] = toString (first.toInt + i) ++ code) ∧
    ((¬ ∃ first code count, Sequences p start suit length first code count) →
      ∃ fault, (group .sequence).apply config p [start, suit, length] =
        .error ⟨.wrongType fault, p⟩) ∧
    ∀ first code count, Sequences p start suit length first code count →
      (config.maxItems < count → (group .sequence).apply config p [start, suit, length] =
        .error ⟨.tooMany "sequence" count config.maxItems, p⟩) ∧
      (count ≤ config.maxItems →
        ¬ (count = 0 ∨ first.toInt + count - 1 ≤ Int64.maxValue.toInt) →
        (group .sequence).apply config p [start, suit, length] = .error ⟨.overflow, p⟩) := by
  refine ⟨fun v => ⟨fun h => ?_, ?_⟩, exists_wrongType, fun first code count hargs => ⟨?_, ?_⟩⟩
  -- What is not refused has the tiles of its arguments.
  · by_cases hargs : ∃ first code count, Sequences p start suit length first code count
    · obtain ⟨first, code, count, hargs⟩ := hargs
      rw [sequence_apply hargs] at h
      split at h
      · cases h
      next hcount =>
        split at h
        next hlast =>
          cases h
          exact ⟨first, code, count, _, hargs, by omega, hlast, rfl, by simp, by simp⟩
        next => cases h
    · obtain ⟨fault, herror⟩ := exists_wrongType hargs
      rw [herror] at h
      cases h
  · rintro ⟨first, code, count, tiles, hargs, hcount, hlast, rfl, hlength, htiles⟩
    -- Tiles with these numbers are the ones that a sequence makes.
    have heq : tiles = (List.range count).map fun i : Nat => toString (first.toInt + i) ++ code :=
      List.ext_getElem (by simp [hlength]) fun i hi _ => by simp [htiles i hi]
    rw [sequence_apply hargs, if_neg (by omega), if_pos hlast, heq]
  · intro hcount
    rw [sequence_apply hargs, if_pos hcount]
  · intro hcount hlast
    rw [sequence_apply hargs, if_neg (by omega), if_neg hlast]

/-- The last two words are the numbers of two tiles, but three tiles are one too many for the words,
and where one tile is allowed this is reported first. A length that is negative goes before that. -/
theorem sequence_exact_greatest :
    let first : Value := .integer (Int64.maxValue - 1)
    let suit : Value := .symbol "b"
    (group .sequence).apply {} .start [first, suit, .integer 2] =
        .ok (.group ⟨.sequence, ["9223372036854775806b", "9223372036854775807b"]⟩) ∧
      (group .sequence).apply {} .start [first, suit, .integer 3] =
        .error ⟨.overflow, .start⟩ ∧
      (group .sequence).apply { maxItems := 1 } .start [first, suit, .integer 3] =
        .error ⟨.tooMany "sequence" 3 1, .start⟩ ∧
      ∃ fault, (group .sequence).apply { maxItems := 0 } .start [first, suit, .integer (-1)] =
        .error ⟨.wrongType fault, .start⟩ := by
  intro first suit
  have htwo : Sequences .start first suit (.integer 2) (Int64.maxValue - 1) "b" 2 :=
    ⟨rfl, rfl, 2, rfl, by decide⟩
  have hthree : Sequences .start first suit (.integer 3) (Int64.maxValue - 1) "b" 3 :=
    ⟨rfl, rfl, 3, rfl, by decide⟩
  refine ⟨((sequence_exact {} .start first suit (.integer 2)).1 _).mpr
    ⟨_, _, 2, _, htwo, by decide, by decide, rfl, rfl, ?_⟩,
    ((sequence_exact ..).2.2 _ _ _ hthree).2 (by decide) (by decide),
    ((sequence_exact ..).2.2 _ _ _ hthree).1 (by decide), (sequence_exact ..).2.1 ?_⟩
  -- The two tiles, one after the other.
  · intro i hi
    match i, hi with
    | 0, _ => rfl
    | 1, _ => rfl
  -- A negative length is the length of no sequence.
  · rintro ⟨_, _, count, hargs⟩
    obtain ⟨n, hn, hcount⟩ := hargs.length
    cases hn
    have hvalue : (-1 : Int64).toInt = -1 := by decide
    omega

end Builtin

end HandTemplate
