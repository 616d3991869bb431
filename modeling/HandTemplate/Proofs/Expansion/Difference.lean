import Mathlib
import HandTemplate.Builtin

/-!
# Differences of lists

Some elements are taken away from a list one by one, each where it is found first. What is left is
the difference of multisets, in the order of the list: of each class of elements that count as the
same, as many are taken away from the front as are asked for or as there are. Elements count as the
same if they have the same characters or are equal, and this is an equivalence as long as no number
among them is no number. Main statement: `complement_difference`.
-/

namespace HandTemplate

namespace Binary64

/-- A number where zero has no sign. -/
def unsignedZero (x : Binary64) : Binary64 := if x.magnitude = 0 then ofMagnitude false 0 else x

/-- Numbers are equal as numbers if they differ in the sign of zero only. -/
theorem same_iff {x y : Binary64} (hx : x.isNaN = false) (hy : y.isNaN = false) :
    x.same y = true ↔ x.unsignedZero = y.unsignedZero := by
  have hzero : (ofMagnitude false 0).magnitude = 0 := by decide
  simp only [same, hx, hy, Bool.not_false, Bool.true_and, Bool.or_eq_true, Bool.and_eq_true,
    decide_eq_true_eq]
  unfold unsignedZero
  constructor
  · rintro (rfl | ⟨hx, hy⟩)
    · rfl
    · rw [if_pos hx, if_pos hy]
  · intro h
    split at h <;> split at h
    next hx hy => exact .inr ⟨hx, hy⟩
    next hx hy => exact absurd (h ▸ hzero) hy
    next hx hy => exact absurd (h ▸ hzero) hx
    next => exact .inl h

end Binary64

namespace Value

/-! ## Elements that count as the same -/

/-- No real number in a value is no number. -/
inductive NaNFree : Value → Prop where
  | integer {value : Int64} : NaNFree (.integer value)
  | real {value : Binary64} (hvalue : value.isNaN = false) : NaNFree (.real value)
  | text {value : String} : NaNFree (.text value)
  | symbol {value : String} : NaNFree (.symbol value)
  | bool {value : Bool} : NaNFree (.bool value)
  | null : NaNFree .null
  | list {items : List Value} (hitems : ∀ v ∈ items, NaNFree v) : NaNFree (.list items)
  | group {g : TileGroup} : NaNFree (.group g)
  | builtin {name : String} : NaNFree (.builtin name)

/-- A real number without a NaN is a number. -/
theorem NaNFree.of_real {x : Binary64} (h : NaNFree (.real x)) : x.isNaN = false := by
  cases h with | real hvalue => exact hvalue

/-- The items of a list without a NaN have none either. -/
theorem NaNFree.of_list {items : List Value} (h : NaNFree (.list items)) :
    ∀ v ∈ items, v.NaNFree := by
  cases h with | list hitems => exact hitems

mutual

/-- A value where no zero has a sign, in all of its parts. -/
def unsignedZero : Value → Value
  | real x => real x.unsignedZero
  | list items => list (unsignedZeros items)
  | v => v

/-- Some values where no zero has a sign. -/
def unsignedZeros : List Value → List Value
  | [] => []
  | v :: vs => unsignedZero v :: unsignedZeros vs

end

mutual

/-- Values are equal if they differ in the signs of zeros only. -/
theorem same_iff : (v w : Value) → v.NaNFree → w.NaNFree →
    (v.same w = true ↔ v.unsignedZero = w.unsignedZero)
  | .real x, w, hv, hw => by
    cases w with
    | real y => simp [same, unsignedZero, Binary64.same_iff hv.of_real hw.of_real]
    | _ => simp [same, unsignedZero]
  | .list items, w, hv, hw => by
    cases w with
    | list others => simp [same, unsignedZero, sameItems_iff items others hv.of_list hw.of_list]
    | _ => simp [same, unsignedZero]
  | .integer _, w, _, _ | .text _, w, _, _ | .symbol _, w, _, _ | .bool _, w, _, _
  | .null, w, _, _ | .group _, w, _, _ | .builtin _, w, _, _ => by
    cases w <;> simp [same, unsignedZero]

/-- Two lists without a NaN have the same items exactly if these are equal without the signs of
zeros. -/
theorem sameItems_iff : (vs ws : List Value) → (∀ v ∈ vs, v.NaNFree) → (∀ w ∈ ws, w.NaNFree) →
    (sameItems vs ws = true ↔ unsignedZeros vs = unsignedZeros ws)
  | [], ws, _, _ => by cases ws <;> simp [sameItems, unsignedZeros]
  | v :: vs, [], _, _ => by simp [sameItems, unsignedZeros]
  | v :: vs, w :: ws, hvs, hws => by
    obtain ⟨hv, hvs⟩ := List.forall_mem_cons.mp hvs
    obtain ⟨hw, hws⟩ := List.forall_mem_cons.mp hws
    simp [sameItems, unsignedZeros, same_iff v w hv hw, sameItems_iff vs ws hvs hws]

end

/-- What a value counts as among the elements of a list: a symbol as the text of its characters, and
zeros as without a sign. -/
def element : Value → Value
  | symbol value => text value
  | v => v.unsignedZero

end Value

namespace Builtin

variable {t u v w : Value}

/-- Two values count as the same if they are text or symbols with the same characters, or equal. -/
theorem isSame_iff (hv : v.NaNFree) (hw : w.NaNFree) :
    isSame v w = true ↔ v.element = w.element := by
  have hsame := Value.same_iff v w hv hw
  cases v <;> cases w <;>
    simp_all [isSame, Value.element, Value.same, Value.unsignedZero]

/-- A value without a NaN is the same as itself. -/
theorem isSame_self (hv : v.NaNFree) : isSame v v = true := (isSame_iff hv hv).mpr rfl

/-- Of two values without a NaN, each is the same as the other or neither is. -/
theorem isSame_comm (hv : v.NaNFree) (hw : w.NaNFree) : isSame v w = isSame w v := by
  rw [Bool.eq_iff_iff, isSame_iff hv hw, isSame_iff hw hv, eq_comm]

/-- Two values that count as the same do so with the same ones. -/
theorem isSame_congr (hv : v.NaNFree) (hw : w.NaNFree) (ht : t.NaNFree) (h : isSame v w = true) :
    isSame v t = isSame w t := by
  rw [Bool.eq_iff_iff, isSame_iff hv ht, isSame_iff hw ht, (isSame_iff hv hw).mp h]

/-! ## What is taken away -/

/-- Where one of some elements is taken away, those that count are fewer by one if it counts. -/
theorem countP_eraseP {α : Type} {p q : α → Bool} {b : Bool} {xs : List α} (hany : xs.any p = true)
    (h : ∀ x ∈ xs, p x = true → q x = b) : (xs.eraseP p).countP q + b.toNat = xs.countP q := by
  obtain ⟨x, hx, hp⟩ := List.any_eq_true.mp hany
  obtain ⟨y, before, after, -, hy, rfl, herase⟩ := List.exists_of_eraseP hx hp
  have hq : q y = b := h y (by simp) hy
  rw [herase, List.countP_append, List.countP_append, List.countP_cons, hq]
  cases b with
  | true =>
    rw [if_pos rfl, Bool.toNat_true]
    omega
  | false => rw [if_neg Bool.false_ne_true, Bool.toNat_false, Nat.add_zero, Nat.add_zero]

/-- Nothing remains of no items. -/
theorem without_nil (ts : List Value) : without [] ts = [] := by
  induction ts with
  | nil => rfl
  | cons t ts ih => exact ih

/-- What is left of a list is a part of it. -/
theorem without_sublist (items ts : List Value) : (without items ts).Sublist items := by
  unfold without
  induction ts generalizing items with
  | nil => exact .refl _
  | cons t ts ih => exact (ih _).trans (List.eraseP_sublist ..)

/-- The first element of a list is taken away for the first target that counts as the same. -/
theorem without_cons (v : Value) (items ts : List Value) :
    without (v :: items) ts =
      if ts.any (isSame v) then without items (ts.eraseP (isSame v))
      else v :: without items ts := by
  induction ts generalizing v items with
  | nil => rfl
  | cons t ts ih =>
    change without ((v :: items).eraseP (isSame · t)) ts = _
    cases h : isSame v t with
    | true => simp [h]
    | false =>
      rw [List.eraseP_cons_of_neg (by simp [h]), ih, List.eraseP_cons_of_neg (by simp [h]),
        List.any_cons, h, Bool.false_or]
      rfl

/-- How many elements of a list that count as the same as a value are taken away. -/
def takenOf (items ts : List Value) (v : Value) : Nat :=
  min (ts.countP (isSame v)) (items.countP (isSame v))

/-- Whether an element of a list stays that comes after `before`: those that count as the same have
all been taken away by then. -/
def stays (items ts before : List Value) (v : Value) : Bool :=
  takenOf items ts v ≤ before.countP (isSame v)

section
variable {ts : List Value} (hts : ∀ t ∈ ts, t.NaNFree)
include hts

/-- Where a first element is taken away with its target, one more of those is taken away that count
as the same. -/
theorem takenOf_of_taken (items : List Value) (hv : v.NaNFree) (hw : w.NaNFree)
    (hany : ts.any (isSame v) = true) :
    takenOf (v :: items) ts w = takenOf items (ts.eraseP (isSame v)) w + (isSame w v).toNat := by
  have htargets : (ts.eraseP (isSame v)).countP (isSame w) + (isSame w v).toNat =
      ts.countP (isSame w) := by
    refine countP_eraseP hany fun t ht hsame => ?_
    rw [isSame_comm hw (hts t ht), ← isSame_congr hv (hts t ht) hw hsame, isSame_comm hv hw]
  unfold takenOf
  rw [← htargets, List.countP_cons]
  cases isSame w v <;> simp

/-- If there is no target for an element, then none is taken away of those that count as the same.
-/
theorem takenOf_eq_zero (items : List Value) (hv : v.NaNFree) (hw : w.NaNFree)
    (hany : ts.any (isSame v) = false) (hsame : isSame w v = true) : takenOf items ts w = 0 := by
  have hnone : ts.countP (isSame w) = 0 := by
    rw [List.countP_eq_zero]
    intro t ht
    rw [isSame_congr hw hv (hts t ht) hsame]
    exact List.any_eq_false.mp hany t ht
  rw [takenOf, hnone, Nat.zero_min]

/-- A first element that stays does not count for what is taken away. -/
theorem takenOf_of_left (items : List Value) (hv : v.NaNFree) (hw : w.NaNFree)
    (hany : ts.any (isSame v) = false) : takenOf (v :: items) ts w = takenOf items ts w := by
  cases hsame : isSame w v with
  | true => rw [takenOf_eq_zero hts _ hv hw hany hsame, takenOf_eq_zero hts _ hv hw hany hsame]
  | false => simp [takenOf, hsame]

/-- After an element that is taken away, others stay as they do without it and its target. -/
theorem stays_of_taken (items before : List Value) (hv : v.NaNFree) (hw : w.NaNFree)
    (hany : ts.any (isSame v) = true) :
    stays (v :: items) ts (v :: before) w = stays items (ts.eraseP (isSame v)) before w := by
  unfold stays
  rw [takenOf_of_taken hts items hv hw hany, List.countP_cons, decide_eq_decide]
  cases isSame w v <;> simp

/-- After an element that stays, others stay as they do without it. -/
theorem stays_of_left (items before : List Value) (hv : v.NaNFree) (hw : w.NaNFree)
    (hany : ts.any (isSame v) = false) :
    stays (v :: items) ts (v :: before) w = stays items ts before w := by
  unfold stays
  rw [takenOf_of_left hts items hv hw hany, List.countP_cons, decide_eq_decide]
  cases hsame : isSame w v with
  | true => simp [takenOf_eq_zero hts items hv hw hany hsame]
  | false => simp

omit hts in
/-- The first element of a list stays unless there is a target that counts as the same. -/
theorem stays_first {items : List Value} (hv : v.NaNFree) :
    stays (v :: items) ts [] v = !ts.any (isSame v) := by
  unfold stays takenOf
  rw [List.countP_nil, List.countP_cons, isSame_self hv, if_pos rfl, List.any_eq_not_all_not,
    Bool.not_not, Bool.eq_iff_iff, decide_eq_true_eq, List.all_eq_true]
  simp only [Bool.not_eq_true', ← Bool.not_eq_true, ← List.countP_eq_zero]
  omega

/-- Of the elements that count as the same, as many are taken away from the front as there are
targets, or all of them if there are not so many. -/
theorem without_eq_filter {items : List Value} (hitems : ∀ v ∈ items, v.NaNFree) :
    without items ts = (items.zipIdx.filter fun entry =>
      stays items ts (items.take entry.2) entry.1).map Prod.fst := by
  -- By induction on the list: whether the first element is taken away decides with which targets
  -- the others are compared.
  induction items generalizing ts with
  | nil => rw [without_nil, List.zipIdx_nil, List.filter_nil, List.map_nil]
  | cons v items ih =>
    obtain ⟨hv, hitems⟩ := List.forall_mem_cons.mp hitems
    have hmem : ∀ entry ∈ items.zipIdx, entry.1.NaNFree := fun entry hentry =>
      hitems entry.1 (List.fst_mem_of_mem_zipIdx hentry)
    -- The places of the others are counted from the first element on.
    have hothers : ((items.zipIdx 1).filter fun entry =>
        stays (v :: items) ts ((v :: items).take entry.2) entry.1).map Prod.fst =
          (items.zipIdx.filter fun entry =>
            stays (v :: items) ts (v :: items.take entry.2) entry.1).map Prod.fst := by
      rw [List.zipIdx_succ, List.filter_map, List.map_map]
      rfl
    rw [without_cons, List.zipIdx_cons, List.filter_cons, List.take_zero, stays_first hv]
    cases hany : ts.any (isSame v) with
    | true =>
      have hfilter := List.filter_congr fun entry hentry =>
        stays_of_taken hts items (items.take entry.2) hv (hmem entry hentry) hany
      rw [if_pos rfl, ih (fun t ht => hts t (List.mem_of_mem_eraseP ht)) hitems, Bool.not_true,
        if_neg Bool.false_ne_true, hothers, hfilter]
    | false =>
      have hfilter := List.filter_congr fun entry hentry =>
        stays_of_left hts items (items.take entry.2) hv (hmem entry hentry) hany
      rw [if_neg Bool.false_ne_true, ih hts hitems, Bool.not_false, if_pos rfl, List.map_cons,
        hothers, hfilter]

end

/-! ## Classes -/

/-- One element for each class of elements of a list that count as the same. -/
structure Represents (classes items : List Value) : Prop where
  /-- They are elements of the list. -/
  subset : classes ⊆ items
  /-- No two of them count as the same. -/
  distinct : classes.Pairwise fun c d => isSame c d = false
  /-- Every element counts as the same as one of them. -/
  covers : ∀ v ∈ items, classes.any (isSame v) = true

/-- The elements of a list have classes. -/
theorem exists_represents {items : List Value} (hitems : ∀ v ∈ items, v.NaNFree) :
    ∃ classes, Represents classes items := by
  induction items with
  | nil => exact ⟨[], List.Subset.refl _, .nil, fun _ hv => nomatch hv⟩
  | cons v items ih =>
    obtain ⟨hv, hitems⟩ := List.forall_mem_cons.mp hitems
    obtain ⟨classes, h⟩ := ih hitems
    cases hany : classes.any (isSame v) with
    | true =>
      exact ⟨classes, fun c hc => List.mem_cons_of_mem v (h.subset hc), h.distinct,
        List.forall_mem_cons.mpr ⟨hany, h.covers⟩⟩
    | false =>
      refine ⟨v :: classes, List.cons_subset_cons v h.subset, .cons (fun c hc => ?_) h.distinct,
        List.forall_mem_cons.mpr ⟨?_, fun w hw => ?_⟩⟩
      · exact Bool.eq_false_iff.mpr (List.any_eq_false.mp hany c hc)
      · rw [List.any_cons, isSame_self hv, Bool.true_or]
      · rw [List.any_cons, h.covers w hw, Bool.or_true]

/-- Of values of which no two count as the same, at most one counts as the same as a given one. -/
theorem countP_classes {classes : List Value} (hclasses : ∀ c ∈ classes, c.NaNFree)
    (hdistinct : classes.Pairwise fun c d => isSame c d = false) (hv : v.NaNFree) :
    classes.countP (isSame · v) = (classes.any (isSame v)).toNat := by
  induction classes with
  | nil => rfl
  | cons c classes ih =>
    obtain ⟨hc, hclasses⟩ := List.forall_mem_cons.mp hclasses
    obtain ⟨hfirst, hdistinct⟩ := List.pairwise_cons.mp hdistinct
    rw [List.countP_cons, List.any_cons, ih hclasses hdistinct, isSame_comm hc hv]
    -- A value that is the same as the first one is the same as no other, as these differ from it.
    cases hsame : isSame v c with
    | false => simp
    | true =>
      have hnone : classes.any (isSame v) = false := by
        rw [List.any_eq_false]
        intro d hd
        rw [isSame_congr hv hc (hclasses d hd) hsame, hfirst d hd]
        exact Bool.false_ne_true
      rw [hnone]
      rfl

/-- Two sums over one list, of which the first has one more where a condition holds, differ by the
number of elements for which it does. -/
theorem sum_map_of_add {α : Type} {f g : α → Nat} {p : α → Bool} {xs : List α}
    (h : ∀ x ∈ xs, f x = g x + (p x).toNat) : (xs.map f).sum = (xs.map g).sum + xs.countP p := by
  induction xs with
  | nil => rfl
  | cons x xs ih =>
    obtain ⟨hx, hxs⟩ := List.forall_mem_cons.mp h
    rw [List.map_cons, List.map_cons, List.sum_cons, List.sum_cons, List.countP_cons, ih hxs, hx]
    cases p x <;> simp <;> omega

/-- Of each class, as many elements are taken away as there are targets or as there are elements. -/
theorem length_without {items ts classes : List Value} (hts : ∀ t ∈ ts, t.NaNFree)
    (hitems : ∀ v ∈ items, v.NaNFree) (hclasses : ∀ c ∈ classes, c.NaNFree)
    (hdistinct : classes.Pairwise fun c d => isSame c d = false)
    (hcovers : ∀ v ∈ items, classes.any (isSame v) = true) :
    (without items ts).length + (classes.map (takenOf items ts)).sum = items.length := by
  -- By induction on the list; an element that is taken away takes a target with it.
  induction items generalizing ts with
  | nil =>
    have hnone : classes.map (takenOf [] ts) = classes.map fun _ => 0 :=
      List.map_congr_left fun c _ => by rw [takenOf, List.countP_nil, Nat.min_zero]
    rw [without_nil, hnone, List.map_const', List.sum_replicate_nat, Nat.mul_zero]
    rfl
  | cons v items ih =>
    obtain ⟨hv, hitems⟩ := List.forall_mem_cons.mp hitems
    obtain ⟨hcover, hcovers⟩ := List.forall_mem_cons.mp hcovers
    rw [without_cons]
    cases hany : ts.any (isSame v) with
    | true =>
      have hleft : ∀ t ∈ ts.eraseP (isSame v), t.NaNFree := fun t ht =>
        hts t (List.mem_of_mem_eraseP ht)
      have hrest := ih hleft hitems hcovers
      -- One target less is left for the class of the element, and as many for all other classes.
      have hsum : (classes.map (takenOf (v :: items) ts)).sum =
          (classes.map (takenOf items (ts.eraseP (isSame v)))).sum + classes.countP (isSame · v) :=
        sum_map_of_add fun c hc => takenOf_of_taken hts items hv (hclasses c hc) hany
      rw [countP_classes hclasses hdistinct hv, hcover, Bool.toNat_true] at hsum
      rw [if_pos rfl, hsum, List.length_cons]
      omega
    | false =>
      -- An element that stays has no target left in its class.
      have hsum : classes.map (takenOf (v :: items) ts) = classes.map (takenOf items ts) :=
        List.map_congr_left fun c hc => takenOf_of_left hts items hv (hclasses c hc) hany
      have hrest := ih hts hitems hcovers
      rw [if_neg Bool.false_ne_true, hsum, List.length_cons, List.length_cons]
      omega

/-- Only how many targets there are for each element matters. -/
theorem without_congr {items ts us : List Value} (hitems : ∀ v ∈ items, v.NaNFree)
    (hts : ∀ t ∈ ts, t.NaNFree) (hus : ∀ u ∈ us, u.NaNFree)
    (h : ∀ v ∈ items, ts.countP (isSame v) = us.countP (isSame v)) :
    without items ts = without items us := by
  rw [without_eq_filter hts hitems, without_eq_filter hus hitems]
  congr 1
  refine List.filter_congr fun entry hentry => ?_
  rw [stays, stays, takenOf, takenOf, h entry.1 (List.fst_mem_of_mem_zipIdx hentry)]

/-- A target for which there is no element counts for none. -/
theorem countP_filter_targets {items ts : List Value} (hitems : ∀ v ∈ items, v.NaNFree)
    (hts : ∀ t ∈ ts, t.NaNFree) (hv : v ∈ items) :
    (ts.filter fun t => items.any (isSame t)).countP (isSame v) = ts.countP (isSame v) := by
  rw [List.countP_filter]
  refine List.countP_congr fun t ht => ?_
  rw [Bool.and_eq_true, and_iff_left_iff_imp]
  intro hsame
  rw [isSame_comm (hitems v hv) (hts t ht)] at hsame
  exact List.any_eq_true.mpr ⟨v, hv, hsame⟩

end Builtin

/-- The values that a complement takes away have no NaN if its argument has none. -/
theorem Value.NaNFree.targets {v : Value} (h : v.NaNFree) : ∀ t ∈ Builtin.targets v, t.NaNFree := by
  cases v with
  | list => exact h.of_list
  | _ => exact List.forall_mem_singleton.mpr h

open Builtin in
/-- The difference of two lists, or of a list and one value, where no real number is no number. Two
elements count as the same if they are text or symbols with the same characters, or equal. Of those
that count as the same, as many as there are targets, or all if there are not so many, are taken
away from the front of the list, and everything else is kept in order. So what is left is a part of
the list that is shorter by what is taken away of all classes, targets for which there is no element
do not matter, and neither does the order of the targets. -/
theorem complement_difference (config : Config) (p : Position) {target : Value} {items : List Value}
    (htarget : target.NaNFree) (hitems : ∀ v ∈ items, v.NaNFree) :
    (∀ v w : Value, v.NaNFree → w.NaNFree → (isSame v w = true ↔ v.element = w.element)) ∧
    ∃ left, complement.apply config p [target, .list items] = .ok (.list left) ∧
      left = (items.zipIdx.filter fun entry =>
        takenOf items (targets target) entry.1 ≤
          (items.take entry.2).countP (isSame entry.1)).map Prod.fst ∧
      left.Sublist items ∧
      (∃ classes, Represents classes items ∧
        left.length + (classes.map (takenOf items (targets target))).sum = items.length) ∧
      complement.apply config p
        [.list ((targets target).filter fun t => items.any (isSame t)), .list items] =
          .ok (.list left) ∧
      ∀ ts, ts.Perm (targets target) →
        complement.apply config p [.list ts, .list items] = .ok (.list left) := by
  -- Both a list and a single value are a list of targets.
  have htargets := htarget.targets
  have happly : ∀ ts, complement.apply config p [.list ts, .list items] =
      .ok (.list (without items ts)) := fun _ => rfl
  refine ⟨fun v w => isSame_iff, without items (targets target), rfl,
    without_eq_filter htargets hitems, without_sublist .., ?_, ?_, fun ts hperm => ?_⟩
  -- What is left and what is taken away of each class make up the list.
  · obtain ⟨classes, h⟩ := exists_represents hitems
    exact ⟨classes, h, length_without htargets hitems (fun c hc => hitems c (h.subset hc))
      h.distinct h.covers⟩
  · rw [happly, without_congr hitems (fun t ht => htargets t ((List.mem_filter.mp ht).1)) htargets
      fun v hv => countP_filter_targets hitems htargets hv]
  · rw [happly, without_congr hitems (fun t ht => htargets t (hperm.subset ht)) htargets
      fun v _ => hperm.countP_eq _]

open Builtin in
/-- A text and a symbol take two of three suits away that are written like them, but not the list of
one; a target that is not there is ignored. -/
theorem complement_difference_suits :
    let b : Value := .symbol "b"
    let items : List Value := [b, .list [b], .text "b", b]
    let target : Value := .list [.text "b", b, .symbol "d"]
    target.NaNFree ∧ (∀ v ∈ items, v.NaNFree) ∧
      complement.apply {} .start [target, .list items] = .ok (.list [.list [b], b]) ∧
      complement.apply {} .start [.list [.symbol "d", b, .text "b"], .list items] =
        .ok (.list [.list [b], b]) := by
  intro b items target
  -- Neither the suits nor the targets have a real number in them.
  have hlist : Value.NaNFree (.list [b]) := .list (List.forall_mem_singleton.mpr .symbol)
  have hitems : ∀ v ∈ items, v.NaNFree := by
    simp only [items, List.forall_mem_cons, List.not_mem_nil, false_implies, implies_true, and_true]
    exact ⟨.symbol, hlist, .text, .symbol⟩
  have htarget : target.NaNFree := by
    refine .list ?_
    simp only [List.forall_mem_cons, List.not_mem_nil, false_implies, implies_true, and_true]
    exact ⟨.text, .symbol, .symbol⟩
  obtain ⟨-, left, happly, -, -, -, -, hperm⟩ := complement_difference {} .start htarget hitems
  have hleft : complement.apply {} .start [target, .list items] =
      .ok (.list [.list [b], b]) := rfl
  have hsame := happly.symm.trans hleft
  exact ⟨htarget, hitems, hleft, (hperm _ (List.reverse_perm _)).trans hsame⟩

end HandTemplate
