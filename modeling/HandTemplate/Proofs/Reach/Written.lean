import HandTemplate.Proofs.Expansion.Difference
import HandTemplate.Proofs.Expansion.Operations
import HandTemplate.Proofs.Expansion.Ranges
import HandTemplate.Proofs.Orderings.Places
import HandTemplate.Proofs.Reach.Invariant

/-!
# Values that templates can write

A template writes no negative integer, and a name that it aliases is a builtin's only if a builtin
has that name. Both pass to all values that the language makes of others: integers are only added,
multiplied and counted up, and nothing makes a builtin. So among such values some faults do not
arise, and others arise in one way only (`Raises.cause`).
-/

namespace HandTemplate

/-- A value without negative integers and without names of builtins that there are not, in all of
its parts. -/
inductive Value.Written : Value → Prop where
  | integer {value : Int64} (hvalue : 0 ≤ value.toInt) : Written (.integer value)
  | real {value : Binary64} : Written (.real value)
  | text {value : String} : Written (.text value)
  | symbol {value : String} : Written (.symbol value)
  | bool {value : Bool} : Written (.bool value)
  | null : Written .null
  | list {items : List Value} (hitems : ∀ v ∈ items, Written v) : Written (.list items)
  | group {g : TileGroup} : Written (.group g)
  | builtin {name : String} (hname : (Builtin.ofName? name).isSome) : Written (.builtin name)

open Outcome

/-! ## What is made of written values -/

namespace Value

variable {p : Position} {config : Config}

/-- A written integer is not negative. -/
theorem Written.integer_inv {n : Int64} (h : Written (.integer n)) : 0 ≤ n.toInt := by
  cases h with | integer hvalue => exact hvalue

/-- The items of a written list are written. -/
theorem Written.items {items : List Value} (h : Written (.list items)) :
    ∀ v ∈ items, v.Written := by
  cases h with | list hitems => exact hitems

/-- The integers from one that is not negative on are not negative. -/
theorem interval_written {first last : Int64} (hfirst : 0 ≤ first.toInt) {v : Value}
    (h : Builtin.interval first last config p = .ok v) : v.Written := by
  obtain ⟨-, rfl⟩ := Builtin.interval_eq_ok.mp h
  refine .list fun a ha => ?_
  obtain ⟨n, hn, rfl⟩ := List.mem_map.mp ha
  have hle := Int64.le_iff_toInt_le.mp (Number.mem_range.mp hn).1
  exact .integer (by omega)

/-- What a builtin gives for written arguments is written. -/
theorem apply_written {b : Builtin} {vs : List Value} (hvs : ∀ a ∈ vs, a.Written) {v : Value}
    (h : b.apply config p vs = .ok v) : v.Written := by
  cases Builtin.apply_eq_ok.mp h with
  | copies => exact .group
  | sequence => exact .group
  | @complement _ items =>
    have hitems := (hvs (.list items) (by simp)).items
    exact .list fun a ha => hitems a ((Builtin.without_sublist _ _).subset ha)
  | @permutations items =>
    have hitems := (hvs (.list items) (by simp)).items
    refine .list fun a ha => ?_
    obtain ⟨ordering, hordering, rfl⟩ := List.mem_map.mp ha
    exact .list fun a ha => hitems a ((Orderings.mem_all.mp hordering).subset ha)
  | @range first last hcount =>
    have hfirst := (hvs (.integer first) (by simp)).integer_inv
    exact interval_written hfirst (Builtin.interval_eq_ok (p := p).mpr ⟨hcount, rfl⟩)

/-- An item of a written list is written. -/
theorem itemAt_written {target place v : Value} (htarget : target.Written)
    (h : Expansion.itemAt p target place = .ok v) : v.Written := by
  obtain ⟨items, n, rfl, -, -, hitem⟩ := Expansion.itemAt_eq_ok.mp h
  exact htarget.items v (List.mem_of_getElem? hitem)

/-- Sums and products of integers that are not negative are not, and written lists are joined to
written ones. -/
theorem operate_written {operator : Operator} {left right v : Value} (hleft : left.Written)
    (hright : right.Written) (h : Expansion.operate config p operator left right = .ok v) :
    v.Written := by
  cases Expansion.operate_eq_ok.mp h with
  | sum hn =>
    have ha := hleft.integer_inv
    have hb := hright.integer_inv
    exact .integer (by omega)
  | product hn => exact .integer (hn ▸ Int.mul_nonneg hleft.integer_inv hright.integer_inv)
  | append =>
    refine .list fun a ha => ?_
    rcases List.mem_append.mp ha with ha | ha
    · exact hleft.items a ha
    · exact hright.items a ha

/-- What a loop over a written value visits is written. -/
theorem elements_written {v : Value} (hv : v.Written) {items : List Value}
    (h : v.elements? = some items) : ∀ a ∈ items, a.Written := by
  cases hv with
  | list hitems =>
    cases h
    exact hitems
  | text =>
    cases h
    intro a ha
    obtain ⟨c, -, rfl⟩ := List.mem_map.mp ha
    exact .text
  | group =>
    cases h
    intro a ha
    obtain ⟨code, -, rfl⟩ := List.mem_map.mp ha
    exact .symbol
  | _ => cases h

/-- Evaluation makes written values of written ones. -/
theorem written_passed (config : Config) : Passed config Written where
  symbol _ := .symbol
  apply hvs h := apply_written hvs h
  item htarget _ h := itemAt_written htarget h
  operate hleft hright h := operate_written hleft hright h
  elements hv h := elements_written hv h

end Value

/-! ## Faults among written values -/

/-- A fault other than a negative length, a missing item and an unknown builtin. -/
def ExpansionFault.Plain (e : ExpansionFault) : Prop :=
  match e.cause with
  | .wrongType (.negativeLength _) | .noSuchItem _ _ | .unknownBuiltin _ => False
  | _ => True

section
variable {p : Position} {config : Config} {e : ExpansionFault}

/-- Operations refuse written operands for other reasons than a negative length. -/
theorem Refuses.plain {vs : List Value} (hvs : ∀ v ∈ vs, v.Written)
    (h : Refuses config p vs e) : e.Plain := by
  cases h with
  | negativeLength hmem hnegative =>
    have hnonneg := (hvs _ hmem).integer_inv
    omega
  | _ => trivial

/-- Without operands there is no length to be negative. -/
theorem Refuses.plain_nil (h : Refuses config p [] e) : e.Plain :=
  h.plain fun _ hv => absurd hv List.not_mem_nil

namespace Expansion

variable {m : Expansion}

/-- A place that a list does not have is beyond its end, if the place is written. -/
theorem itemAt_cause {target place : Value} (hplace : place.Written)
    (h : itemAt p target place = .error e) :
    e.Plain ∨ ∃ (length : Nat) (found : Int64),
      e = ⟨.noSuchItem length found, p⟩ ∧ length ≤ found.toInt := by
  have hcause : Refuses {} p [] e ∨ _ := itemAt_refuses h
  rcases hcause with hrefuses | ⟨length, found, rfl, rfl, hfound⟩
  · exact .inl hrefuses.plain_nil
  · have hnonneg := hplace.integer_inv
    exact .inr ⟨length, found, rfl, by omega⟩

/-- An assignment has plain faults only. -/
theorem assign_plain {binding : Binding} {value : Value} (h : Fails (assign binding value p) m e) :
    e.Plain := by
  unfold assign at h
  split at h
  · exact absurd h (not_fails_modify _)
  · split at h
    · exact absurd h (not_fails_modify _)
    · rw [← fails_throw.mp h]
      trivial
  · rw [← fails_throw.mp h]
    trivial

/-- A name has plain faults only. -/
theorem nameValue_plain {name : String} {fallback : Fallback}
    (h : Fails (nameValue name p fallback) m e) : e.Plain := by
  unfold nameValue at h
  rw [fails_get] at h
  split at h
  · exact absurd h (not_fails_pure _)
  · split at h
    · exact absurd h (not_fails_pure _)
    · rw [← fails_throw.mp h]
      trivial

/-- Among written values, a called name is unknown exactly if it is bound to no builtin. -/
theorem fails_callee (hm : m.Has config Value.Written) {name : String} :
    Fails (callee name p) m e ↔
      (∀ b, m.valueOf? name ≠ some (.builtin b)) ∧ ⟨.unknownBuiltin name, p⟩ = e := by
  unfold callee
  rw [fails_get]
  split
  next b hb =>
    -- A builtin that a name is bound to is one of those that there are.
    have hwritten := hm.valueOf? hb
    cases hwritten with
    | builtin hname =>
      obtain ⟨builtin, hbuiltin⟩ := Option.isSome_iff_exists.mp hname
      simp [hb, hbuiltin]
  next hnone =>
    rw [fails_throw]
    exact ⟨fun h => ⟨fun b hb => hnone b hb, h⟩, And.right⟩

end Expansion

end

namespace Expansion.Moment

variable {config : Config} {x : Moment} {e : ExpansionFault}

/-- The causes of faults at a moment at which all values are written: a missing item is asked for
beyond the end of its list, a builtin is unknown if its name is bound to none, and no length is
negative. -/
theorem Raises.cause (h : x.Raises e) (hx : x.Sound config Value.Written) :
    e.Plain ∨
      (∃ (length : Nat) (found : Int64) (p : Position),
        e = ⟨.noSuchItem length found, p⟩ ∧ length ≤ found.toInt) ∨
      ∃ (name : String) (arguments : List Expr) (p : Position),
        x.activity = .call name arguments p ∧ e = ⟨.unknownBuiltin name, p⟩ ∧
          ∀ b, x.state.valueOf? name ≠ some (.builtin b) := by
  have hP := Value.written_passed config
  -- Only a call whose name is bound to nothing, or an item, has a cause that depends on the values.
  cases h with
  | variations _ _ _ hcount => exact .inl (checkCount_refuses hcount).plain_nil
  | assigned _ hassign => exact .inl (assign_plain hassign)
  | bound hassign => exact .inl (assign_plain hassign)
  | tooDeep | noElements | callTooDeep | wrongCount => exact .inl trivial
  | unknown hcallee =>
    obtain ⟨hnone, rfl⟩ := (fails_callee hx.state).mp hcallee
    exact .inr (.inr ⟨_, _, _, rfl, rfl, hnone⟩)
  | @applied name arguments p m b vs e _ _ hvalues _ happly =>
    have hvs := exprValues_passes hP arguments hx.activity b.fallback _ vs _ hx.state.deeper hvalues
    exact .inl ((Builtin.apply_refuses happly).plain hvs.2.1)
  | name hname => exact .inl (nameValue_plain hname)
  | range hrange => exact .inl (Builtin.interval_refuses hrange).plain_nil
  | @item target place p fallback m v i e _ _ hplace hitem =>
    have hactivity := hx.activity
    cases hactivity with
    | index _ hliterals =>
      have hi := (exprValue_passes hP place hliterals .nothing _ i _ hx.state.deeper hplace).2
      rcases itemAt_cause hi hitem with hplain | ⟨length, found, he, hle⟩
      · exact .inl hplain
      · exact .inr (.inl ⟨length, found, p, he, hle⟩)
  | operation _ _ _ hoperate => exact .inl (operate_refuses hoperate).plain_nil

end Expansion.Moment

end HandTemplate
