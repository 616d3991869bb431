import HandTemplate.Proofs.Expansion.Failing

/-!
# What operations on values give

Builtins, operators and indices have a value for some operands only, and that value is made of the
operands. `Builtin.Makes` and `Operator.Makes` say for which operands and of what, with the limits
that are met on the way, so that what holds of all values is shown case by case, with no steps to
follow: `Builtin.apply_eq_ok`, `Expansion.operate_eq_ok` and `Expansion.itemAt_eq_ok`. `Refuses`
says in the same way with which faults other operands are refused: `Builtin.apply_refuses`,
`Expansion.operate_refuses` and `Expansion.itemAt_refuses`.
-/

namespace HandTemplate

open Outcome (bind_eq_ok bind_eq_error)

variable {config : Config} {p : Position} {v : Value}

namespace Value

/-- The integer that a value is taken as is the value. -/
theorem toInteger_eq_ok {n : Int64} : v.toInteger p = .ok n ↔ v = .integer n := by
  constructor
  · intro h
    cases v <;> cases h
    rfl
  · rintro rfl
    rfl

/-- The items that a value is taken as are those of the list. -/
theorem toItems_eq_ok {items : List Value} : v.toItems p = .ok items ↔ v = .list items := by
  constructor
  · intro h
    cases v <;> cases h
    rfl
  · rintro rfl
    rfl

end Value

/-! ## Builtins -/

namespace TileGroup

/-- The tiles of a suit from a number on: the first one, and those from the next number on. -/
theorem tiles_succ (suit : String) (first : Int) (more : Nat) :
    ((List.range (more + 1)).map fun i : Nat => toString (first + i) ++ suit) =
      (toString first ++ suit) ::
        (List.range more).map fun i : Nat => toString (first + 1 + i) ++ suit := by
  rw [List.range_succ_eq_map, List.map_cons, List.map_map]
  congr 1
  · simp
  · refine List.map_congr_left fun i _ => ?_
    simp [Int.add_comm, Int.add_left_comm]

/-- After a tile come so many more whose numbers are words, or none if the last one's is no word. -/
theorem continued?_eq (suit : String) (last : Int64) (tiles : Array String) (more : Nat) :
    continued? suit last tiles more =
      if last.toInt + more ≤ Int64.maxValue.toInt then
        some (tiles ++ ((List.range more).map fun i : Nat =>
          toString (last.toInt + 1 + i) ++ suit).toArray)
      else none := by
  -- By induction on how many tiles are to come, each with the word after the one before it.
  induction more generalizing last tiles with
  | zero =>
    rw [if_pos (by simpa using last.toInt_le)]
    simp [continued?]
  | succ more ih =>
    have hone : (1 : Int64).toInt = 1 := by decide
    rw [continued?, Number.add?, hone]
    cases hnext : Number.ofInt? (last.toInt + 1) with
    | none =>
      -- The next number is no word, and neither is the last one, which is no less.
      have hnone : ¬ last.toInt + (more + 1 : Nat) ≤ Int64.maxValue.toInt := by
        intro hle
        have hmin := last.minValue_le_toInt
        rw [Number.ofInt?, if_pos (by omega)] at hnext
        cases hnext
      rw [if_neg hnone]
      rfl
    | some next =>
      -- The next number is a word, from which the others go on.
      have hvalue : next.toInt = last.toInt + 1 := Number.ofInt?_eq_some_iff.mp hnext
      have hlast : last.toInt + 1 + more = last.toInt + (more + 1 : Nat) := by omega
      change continued? suit next _ more = _
      rw [ih, Number.text, hvalue, hlast, tiles_succ, List.push_append_toArray]

/-- A sequence of tiles counts up from its first number, if the number of the last one is a word. -/
theorem ascending?_eq (start : Int64) (suit : String) (length : Nat) :
    ascending? start suit length =
      if length = 0 ∨ start.toInt + length - 1 ≤ Int64.maxValue.toInt then
        some ⟨.sequence, (List.range length).map fun i : Nat => toString (start.toInt + i) ++ suit⟩
      else none := by
  cases length with
  | zero => rfl
  | succ more =>
    have hlast : start.toInt + (more + 1 : Nat) - 1 = start.toInt + more := by omega
    rw [ascending?, continued?_eq, hlast, tiles_succ]
    by_cases hword : start.toInt + more ≤ Int64.maxValue.toInt
    · rw [if_pos hword, if_pos (.inr hword)]
      simp [Number.text]
    · rw [if_neg hword, if_neg (by simp [hword])]
      rfl

/-- A sequence of a given length has as many tiles. -/
theorem length_of_ascending? {start : Int64} {suit : String} {length : Nat} {g : TileGroup}
    (h : ascending? start suit length = some g) : g.tiles.length = length := by
  rw [ascending?_eq] at h
  split at h
  next =>
    cases h
    rw [List.length_map, List.length_range]
  next => cases h

end TileGroup

namespace Builtin

/-- `Makes config p b vs v`: the builtin `b`, called at `p`, makes the value `v` of the values `vs`.
-/
inductive Makes (config : Config) (p : Position) : Builtin → List Value → Value → Prop where
  | copies {shape : GroupShape} {vs : List Value} {pieces : List String}
      (hshape : shape ≠ .sequence) (hpieces : vs.mapM (·.toTileCode p) = .ok pieces) :
      Makes config p (.group shape) vs (.group (.ofCopies shape (String.join pieces)))
  | sequence {start length : Int64} {suit : Value} {code : String} {g : TileGroup}
      (hsuit : suit.toTileCode p = .ok code) (hlength : 0 ≤ length.toInt)
      (hcount : length.toInt.toNat ≤ config.maxItems)
      (hg : TileGroup.ascending? start code length.toInt.toNat = some g) :
      Makes config p (.group .sequence) [.integer start, suit, .integer length] (.group g)
  | complement {target : Value} {items : List Value} :
      Makes config p .complement [target, .list items] (.list (without items (targets target)))
  | permutations {items : List Value} (hcount : Orderings.count items.length ≤ config.maxItems) :
      Makes config p .permutations [.list items] (.list ((Orderings.all items).map .list))
  | range {first last : Int64} (hcount : Number.count first last ≤ config.maxItems) :
      Makes config p .range [.integer first, .integer last]
        (.list ((Number.range first last).map .integer))

/-- An interval has the integers from its first to its last, if these are not too many. -/
theorem interval_eq_ok {first last : Int64} : interval first last config p = .ok v ↔
    Number.count first last ≤ config.maxItems ∧
      v = .list ((Number.range first last).map .integer) := by
  unfold interval
  rw [bind_eq_ok]
  constructor
  · rintro ⟨_, hcount, h⟩
    cases h
    exact ⟨Expansion.checkCount_eq_ok.mp hcount, rfl⟩
  · rintro ⟨hcount, rfl⟩
    exact ⟨(), Expansion.checkCount_eq_ok.mpr hcount, rfl⟩

/-- A sequence that is given is one that its operands make. -/
theorem sequenceOf_makes {start suit length : Value}
    (h : sequenceOf config p start suit length = .ok v) :
    Makes config p (.group .sequence) [start, suit, length] v := by
  obtain ⟨first, hfirst, hsuit⟩ := bind_eq_ok.mp h
  obtain ⟨code, hcode, hlength⟩ := bind_eq_ok.mp hsuit
  obtain ⟨count, hcount, hmade⟩ := bind_eq_ok.mp hlength
  obtain rfl := Value.toInteger_eq_ok.mp hfirst
  obtain rfl := Value.toInteger_eq_ok.mp hcount
  dsimp only at hmade
  split at hmade
  · cases hmade
  next hnonneg =>
    obtain ⟨_, hitems, hgroup⟩ := bind_eq_ok.mp hmade
    split at hgroup
    next g hg =>
      cases hgroup
      exact .sequence hcode (by omega) (Expansion.checkCount_eq_ok.mp hitems) hg
    next => cases hgroup

/-- A builtin has a value exactly if it makes it of its arguments. -/
theorem apply_eq_ok {b : Builtin} {vs : List Value} :
    b.apply config p vs = .ok v ↔ Makes config p b vs v := by
  constructor
  -- What a call gives is made by the clause for its builtin, with operands of the types that it
  -- asks for.
  · intro h
    unfold apply at h
    split at h
    next => exact sequenceOf_makes h
    next target list =>
      obtain ⟨items, hitems, hleft⟩ := bind_eq_ok.mp h
      obtain rfl := Value.toItems_eq_ok.mp hitems
      cases hleft
      exact .complement
    next list =>
      obtain ⟨items, hitems, hchecked⟩ := bind_eq_ok.mp h
      obtain ⟨_, hcount, horderings⟩ := bind_eq_ok.mp hchecked
      obtain rfl := Value.toItems_eq_ok.mp hitems
      cases horderings
      exact .permutations (Expansion.checkCount_eq_ok.mp hcount)
    next first last =>
      obtain ⟨n, hfirst, hupper⟩ := bind_eq_ok.mp h
      obtain ⟨m, hlast, hinterval⟩ := bind_eq_ok.mp hupper
      obtain rfl := Value.toInteger_eq_ok.mp hfirst
      obtain rfl := Value.toInteger_eq_ok.mp hlast
      obtain ⟨hcount, rfl⟩ := interval_eq_ok.mp hinterval
      exact .range hcount
    -- A wrong number of arguments is refused.
    · cases h
    · cases h
    · cases h
    · cases h
    next shape hshape _ =>
      obtain ⟨pieces, hpieces, hcopies⟩ := bind_eq_ok.mp h
      cases hcopies
      exact .copies hshape hpieces
  -- What is made of such operands passes all checks of the call.
  · intro h
    cases h with
    | @copies shape _ _ hshape hpieces =>
      have hcopies : (group shape).apply config p vs = copiesOf shape p vs := by
        cases shape <;> first | rfl | exact absurd rfl hshape
      rw [hcopies]
      exact bind_eq_ok.mpr ⟨_, hpieces, rfl⟩
    | @sequence start length suit code g hsuit hlength hcount hg =>
      refine bind_eq_ok.mpr ⟨start, rfl, bind_eq_ok.mpr ⟨code, hsuit, ?_⟩⟩
      refine bind_eq_ok.mpr ⟨length, rfl, ?_⟩
      dsimp only
      rw [if_neg (by omega)]
      refine bind_eq_ok.mpr ⟨(), Expansion.checkCount_eq_ok.mpr hcount, ?_⟩
      rw [hg]
      rfl
    | complement => rfl
    | permutations hcount =>
      refine bind_eq_ok.mpr ⟨_, rfl, ?_⟩
      exact bind_eq_ok.mpr ⟨(), Expansion.checkCount_eq_ok.mpr hcount, rfl⟩
    | range hcount => exact interval_eq_ok.mpr ⟨hcount, rfl⟩

end Builtin

/-! ## Operators and indices -/

/-- `Makes config o left right v`: the operator `o` makes the value `v` of two values. -/
inductive Operator.Makes (config : Config) : Operator → Value → Value → Value → Prop where
  | sum {a b n : Int64} (hn : n.toInt = a.toInt + b.toInt) :
      Makes config .add (.integer a) (.integer b) (.integer n)
  | product {a b n : Int64} (hn : n.toInt = a.toInt * b.toInt) :
      Makes config .mul (.integer a) (.integer b) (.integer n)
  | append {as bs : List Value} (hcount : as.length + bs.length ≤ config.maxItems) :
      Makes config .add (.list as) (.list bs) (.list (as ++ bs))

namespace Expansion

/-- An operation has a value exactly if its operator makes it of the operands. -/
theorem operate_eq_ok {operator : Operator} {left right : Value} :
    operate config p operator left right = .ok v ↔ operator.Makes config left right v := by
  constructor
  -- Only operands of the same type, integers or lists, can be operated on.
  · intro h
    unfold operate at h
    dsimp only at h
    split at h
    next =>
      split at h
      next hn =>
        cases h
        exact .sum (Number.ofInt?_eq_some_iff.mp hn)
      next => cases h
    next =>
      split at h
      next hn =>
        cases h
        exact .product (Number.ofInt?_eq_some_iff.mp hn)
      next => cases h
    next =>
      obtain ⟨_, hcount, h⟩ := bind_eq_ok.mp h
      cases h
      exact .append (checkCount_eq_ok.mp hcount)
    next => cases h
  · intro h
    cases h with
    | @sum a b n hn =>
      have hadd : Number.add? a b = some n := Number.ofInt?_eq_some_iff.mpr hn
      simp only [operate, hadd]
    | @product a b n hn =>
      have hmul : Number.mul? a b = some n := Number.ofInt?_eq_some_iff.mpr hn
      simp only [operate, hmul]
    | append hcount => exact bind_eq_ok.mpr ⟨(), checkCount_eq_ok.mpr hcount, rfl⟩

/-- There is an item at an index exactly if this is the place of one in a list. -/
theorem itemAt_eq_ok {target place : Value} : itemAt p target place = .ok v ↔
    ∃ items n, target = .list items ∧ place = .integer n ∧ 0 ≤ n.toInt ∧
      items[n.toInt.toNat]? = some v := by
  constructor
  -- The place has to be an integer and the target a list before the place is looked for.
  · intro h
    obtain ⟨n, hplace, h⟩ := bind_eq_ok.mp h
    obtain ⟨items, htarget, h⟩ := bind_eq_ok.mp h
    dsimp only at h
    split at h
    · cases h
    split at h
    next item hitem =>
      cases h
      exact ⟨items, n, Value.toItems_eq_ok.mp htarget, Value.toInteger_eq_ok.mp hplace, by omega,
        hitem⟩
    next => cases h
  · rintro ⟨items, n, rfl, rfl, hn, hitem⟩
    refine bind_eq_ok.mpr ⟨n, rfl, bind_eq_ok.mpr ⟨items, rfl, ?_⟩⟩
    dsimp only
    rw [if_neg (by omega), hitem]
    rfl

end Expansion

/-! ## Refusals -/

/-- `Refuses config p vs e`: an operation at `p` may refuse the operands `vs` with the fault `e`. -/
inductive Refuses (config : Config) (p : Position) (vs : List Value) : ExpansionFault → Prop where
  | tooMany {what : String} {found : Nat} (hfound : config.maxItems < found) :
      Refuses config p vs ⟨.tooMany what found config.maxItems, p⟩
  | notInteger {found : ValueType} : Refuses config p vs ⟨.wrongType (.notInteger found), p⟩
  | notList {found : ValueType} : Refuses config p vs ⟨.wrongType (.notList found), p⟩
  | notTileCode {found : ValueType} : Refuses config p vs ⟨.wrongType (.notTileCode found), p⟩
  | negativeLength {count : Int64} (hmem : .integer count ∈ vs) (hcount : count.toInt < 0) :
      Refuses config p vs ⟨.wrongType (.negativeLength count), p⟩
  | operands {operator : Operator} {left right : ValueType} :
      Refuses config p vs ⟨.wrongType (.operands operator left right), p⟩
  | overflow : Refuses config p vs ⟨.overflow, p⟩
  | wrongCount {name : String} {expected : Arity} {found : Nat} :
      Refuses config p vs ⟨.wrongCount name expected found, p⟩

section
variable {vs : List Value} {e : ExpansionFault}

/-- A number of items that is refused is too great. -/
theorem Expansion.checkCount_refuses {what : String} {found : Nat}
    (h : checkCount what found config p = .error e) : Refuses config p vs e := by
  obtain ⟨hfound, rfl⟩ := checkCount_eq_error.mp h
  exact .tooMany hfound

namespace Value

/-- A value is refused as an integer for its type. -/
theorem toInteger_refuses (h : v.toInteger p = .error e) : Refuses config p vs e := by
  cases v <;> cases h <;> exact .notInteger

/-- A value is refused as a list for its type. -/
theorem toItems_refuses (h : v.toItems p = .error e) : Refuses config p vs e := by
  cases v <;> cases h <;> exact .notList

/-- A value is refused as a tile code for its type. -/
theorem toTileCode_refuses (h : v.toTileCode p = .error e) : Refuses config p vs e := by
  cases v <;> cases h <;> exact .notTileCode

end Value

namespace Builtin

/-- An interval is refused for its number of integers. -/
theorem interval_refuses {first last : Int64} (h : interval first last config p = .error e) :
    Refuses config p vs e := by
  rcases bind_eq_error.mp h with hcount | ⟨_, -, h⟩
  · exact Expansion.checkCount_refuses hcount
  · cases h

/-- Copies are refused for a piece that is no tile code. -/
theorem copiesOf_refuses {shape : GroupShape} {pieces : List Value}
    (h : copiesOf shape p pieces = .error e) : Refuses config p vs e := by
  rcases bind_eq_error.mp h with hpieces | ⟨_, -, h⟩
  · clear h
    induction pieces with
    | nil => cases hpieces
    | cons piece pieces ih =>
      rw [List.mapM_cons] at hpieces
      rcases bind_eq_error.mp hpieces with hpiece | ⟨_, -, hrest⟩
      · exact Value.toTileCode_refuses hpiece
      rcases bind_eq_error.mp hrest with hothers | ⟨_, -, h⟩
      · exact ih hothers
      · cases h
  · cases h

/-- A sequence is refused for the type of an operand, for its length or for a tile that is too
great. -/
theorem sequenceOf_refuses {start suit length : Value}
    (h : sequenceOf config p start suit length = .error e) :
    Refuses config p [start, suit, length] e := by
  -- The operands are checked from left to right, then the length, the limit and the last number.
  rcases bind_eq_error.mp h with hstart | ⟨first, -, h⟩
  · exact Value.toInteger_refuses hstart
  rcases bind_eq_error.mp h with hsuit | ⟨code, -, h⟩
  · exact Value.toTileCode_refuses hsuit
  rcases bind_eq_error.mp h with hcount | ⟨count, hcount, hchecked⟩
  · exact Value.toInteger_refuses hcount
  have hmem : .integer count ∈ [start, suit, length] := by simp [Value.toInteger_eq_ok.mp hcount]
  dsimp only at hchecked
  split at hchecked
  next hnegative =>
    cases hchecked
    exact .negativeLength hmem hnegative
  rcases bind_eq_error.mp hchecked with hitems | ⟨_, -, hgroup⟩
  · exact Expansion.checkCount_refuses hitems
  split at hgroup
  · cases hgroup
  · cases hgroup
    exact .overflow

/-- What faults a builtin has. -/
theorem apply_refuses {b : Builtin} (h : b.apply config p vs = .error e) :
    Refuses config p vs e := by
  unfold apply at h
  split at h
  next => exact sequenceOf_refuses h
  next target list =>
    rcases bind_eq_error.mp h with hitems | ⟨_, -, h⟩
    · exact Value.toItems_refuses hitems
    · cases h
  next list =>
    rcases bind_eq_error.mp h with hitems | ⟨items, -, h⟩
    · exact Value.toItems_refuses hitems
    rcases bind_eq_error.mp h with hcount | ⟨_, -, h⟩
    · exact Expansion.checkCount_refuses hcount
    · cases h
  next first last =>
    rcases bind_eq_error.mp h with hfirst | ⟨n, -, h⟩
    · exact Value.toInteger_refuses hfirst
    rcases bind_eq_error.mp h with hlast | ⟨m, -, h⟩
    · exact Value.toInteger_refuses hlast
    · exact interval_refuses h
  -- A wrong number of arguments is refused.
  · cases h
    exact .wrongCount
  · cases h
    exact .wrongCount
  · cases h
    exact .wrongCount
  · cases h
    exact .wrongCount
  · exact copiesOf_refuses h

end Builtin

namespace Expansion

/-- What faults an operator has. -/
theorem operate_refuses {operator : Operator} {left right : Value}
    (h : operate config p operator left right = .error e) : Refuses config p vs e := by
  unfold operate at h
  dsimp only at h
  -- Integers are refused for an overflow only, and lists for their number of items only.
  split at h
  · split at h
    · cases h
    · cases h
      exact .overflow
  · split at h
    · cases h
    · cases h
      exact .overflow
  · rcases bind_eq_error.mp h with hcount | ⟨_, -, h⟩
    · exact checkCount_refuses hcount
    · cases h
  · cases h
    exact .operands

/-- What faults an index has: its operands are refused, or the list has no such place. -/
theorem itemAt_refuses {target place : Value} (h : itemAt p target place = .error e) :
    Refuses config p vs e ∨ ∃ (length : Nat) (found : Int64), place = .integer found ∧
      e = ⟨.noSuchItem length found, p⟩ ∧ (found.toInt < 0 ∨ length ≤ found.toInt) := by
  rcases bind_eq_error.mp h with hn | ⟨n, hn, h⟩
  · exact .inl (Value.toInteger_refuses hn)
  rcases bind_eq_error.mp h with hitems | ⟨items, -, hfound⟩
  · exact .inl (Value.toItems_refuses hitems)
  have hplace := Value.toInteger_eq_ok.mp hn
  -- No place is negative or behind the last item.
  dsimp only at hfound
  split at hfound
  next hnegative =>
    cases hfound
    exact .inr ⟨_, n, hplace, rfl, .inl hnegative⟩
  split at hfound
  · cases hfound
  next hnone =>
    cases hfound
    rw [List.getElem?_eq_none_iff] at hnone
    exact .inr ⟨_, n, hplace, rfl, .inr (by omega)⟩

end Expansion

end

end HandTemplate
