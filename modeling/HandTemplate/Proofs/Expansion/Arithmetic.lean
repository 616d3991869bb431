import HandTemplate.Proofs.Expansion.Failing
import HandTemplate.Proofs.Grammar.Depth

/-!
# Arithmetic of expressions

An expression of natural numbers, names that have such values, sums and products has an exact value,
and so has every expression within it. Evaluated with words it has its exact value if all of these
values are words. If not, then it fails with an overflow, at the operator of the first expression
whose exact value is too great; an expression comes after those within it, as it does when it is
evaluated, so that a product with zero does not bring back what has overflowed before. Main
statement: `exprValue_exact`.
-/

namespace HandTemplate

/-- A natural number is a word unless it is greater than every word. -/
theorem Number.ofInt?_natCast (k : Nat) :
    ofInt? k = if Int64.maxValue.toInt < k then none else some (Int64.ofInt k) := by
  have hmin : Int64.minValue.toInt ≤ k := Int.le_trans (by decide) (Int.natCast_nonneg k)
  unfold ofInt?
  by_cases hk : Int64.maxValue.toInt < k
  · rw [if_pos hk, if_neg (by omega)]
  · rw [if_neg hk, if_pos (by omega)]

/-- The exact result of an operator on natural numbers. -/
def Operator.exact : Operator → Nat → Nat → Nat
  | add, j, k => j + k
  | mul, j, k => j * k

namespace Expr

variable {scopes : List Scope} {e : Expr} {k : Nat}

/-- The exact value of an expression that is built by operators from natural numbers and from names
that have natural numbers as values. No other expression has one. -/
def exactValue? (scopes : List Scope) : Expr → Option Nat
  | number n _ => n.toInt.toNat?
  | identifier name _ =>
    match Expansion.lookup name scopes with
    | some (.integer n) => n.toInt.toNat?
    | _ => none
  | binary operator left right _ => do
    return operator.exact (← left.exactValue? scopes) (← right.exactValue? scopes)
  | _ => none

/-- The exact value of an expression is greater than every word. -/
def Exceeds (scopes : List Scope) (e : Expr) : Prop :=
  ∃ k ∈ e.exactValue? scopes, Int64.maxValue.toInt < k

instance : Decidable (e.Exceeds scopes) :=
  inferInstanceAs (Decidable (∃ k ∈ e.exactValue? scopes, Int64.maxValue.toInt < k))

mutual

/-- The expressions that an expression consists of, from left to right, each after those within it.
-/
def postorder : Expr → List Expr
  | tuple elements p => postorders elements ++ [tuple elements p]
  | call name arguments p => postorders arguments ++ [call name arguments p]
  | index target place p => target.postorder ++ place.postorder ++ [index target place p]
  | binary operator left right p =>
    left.postorder ++ right.postorder ++ [binary operator left right p]
  | e => [e]

/-- The expressions that some expressions consist of. -/
def postorders : List Expr → List Expr
  | [] => []
  | e :: es => e.postorder ++ postorders es

end

/-- The first expression whose exact value is greater than every word, of all that an expression
consists of. -/
def overflow? (scopes : List Scope) (e : Expr) : Option Expr :=
  e.postorder.find? (·.Exceeds scopes)

/-- What an expression with the exact value `k` gives: this value as a word, or if that or another
value on the way is none, an overflow at the first of these. -/
def checked (scopes : List Scope) (e : Expr) (k : Nat) : Except ExpansionFault Value :=
  match e.overflow? scopes with
  | none => .ok (.integer (Int64.ofInt k))
  | some s => .error ⟨.overflow, s.position⟩

/-! ## Exact values -/

/-- The exact value of an operation is that of its operator on the exact values of its operands. -/
theorem exactValue?_binary {operator : Operator} {left right : Expr} {p : Position} :
    (binary operator left right p).exactValue? scopes = some k ↔
      ∃ i j, left.exactValue? scopes = some i ∧ right.exactValue? scopes = some j ∧
        operator.exact i j = k := by
  rw [exactValue?]
  cases left.exactValue? scopes <;> cases right.exactValue? scopes <;> simp

/-- What has an exact value exceeds the words if that value does. -/
theorem exceeds_iff (he : e.exactValue? scopes = some k) :
    e.Exceeds scopes ↔ Int64.maxValue.toInt < k := by
  unfold Exceeds
  rw [he]
  simp

/-- An exact value that does not exceed the words is one. -/
theorem toInt_of_not_exceeds (he : e.exactValue? scopes = some k) (hword : ¬ e.Exceeds scopes) :
    (Int64.ofInt k).toInt = k := by
  rw [exceeds_iff he] at hword
  exact Number.ofInt?_eq_some_iff.mp (by rw [Number.ofInt?_natCast, if_neg hword])

/-- What has a word as its exact value does not exceed the words. -/
theorem not_exceeds {n : Int64} (he : e.exactValue? scopes = n.toInt.toNat?) :
    ¬ e.Exceeds scopes := by
  rintro ⟨k, hk, hexceeds⟩
  rw [he] at hk
  have hword := n.toInt_le
  rw [Int.mem_toNat?.mp hk] at hword
  omega

/-- Only an operation gives more than a word. -/
theorem Exceeds.eq_binary (h : e.Exceeds scopes) :
    -- Numbers and names have words as values.
    ∃ operator left right p, e = binary operator left right p := by
  cases e with
  | number n p => exact absurd h (not_exceeds rfl)
  | identifier name p =>
    obtain ⟨k, hk, -⟩ := id h
    rw [exactValue?] at hk
    split at hk
    next n hname => exact absurd h (not_exceeds (n := n) (by rw [exactValue?, hname]))
    next => cases hk
  | binary operator left right p => exact ⟨operator, left, right, p, rfl⟩
  | _ =>
    obtain ⟨k, hk, -⟩ := h
    cases hk

/-- With an expression, every expression within it has an exact value. -/
theorem exactValue?_within : (e : Expr) → {k : Nat} → e.exactValue? scopes = some k →
    ∀ s ∈ e.postorder, ∃ j, s.exactValue? scopes = some j
  | .number _ _, k, he | .identifier _ _, k, he => by
    intro s hs
    rw [List.mem_singleton.mp hs]
    exact ⟨k, he⟩
  | .binary operator left right p, k, he => by
    obtain ⟨i, j, hleft, hright, -⟩ := exactValue?_binary.mp he
    intro s hs
    rw [postorder, List.mem_append, List.mem_append, List.mem_singleton] at hs
    -- What is within an operation is within an operand, or is the operation.
    rcases hs with (hs | hs) | rfl
    · exact exactValue?_within left hleft s hs
    · exact exactValue?_within right hright s hs
    · exact ⟨k, he⟩

/-- An expression consists of itself and what is within it. -/
theorem mem_postorder (e : Expr) : e ∈ e.postorder := by
  cases e <;> simp [postorder]

/-- There is no overflow exactly if no expression within exceeds the words. -/
theorem overflow?_eq_none : e.overflow? scopes = none ↔ ∀ s ∈ e.postorder, ¬ s.Exceeds scopes := by
  simp [overflow?]

/-- The expression at which there is an overflow exceeds the words. -/
theorem exceeds_of_overflow? {s : Expr} (h : e.overflow? scopes = some s) : s.Exceeds scopes := by
  unfold overflow? at h
  simpa using List.find?_some h

/-- Nothing overflows in an expression that consists of itself alone and does not exceed the words.
-/
theorem overflow?_single (hparts : e.postorder = [e]) (hword : ¬ e.Exceeds scopes) :
    e.overflow? scopes = none := by
  rw [overflow?_eq_none, hparts]
  exact List.forall_mem_singleton.mpr hword

/-- An operation overflows where its left operand does, then where its right operand does, and last
by its own result. -/
theorem overflow?_binary (operator : Operator) (left right : Expr) (p : Position) :
    (binary operator left right p).overflow? scopes =
      (left.overflow? scopes).or ((right.overflow? scopes).or
        (if (binary operator left right p).Exceeds scopes then some (binary operator left right p)
          else none)) := by
  unfold overflow?
  rw [postorder, List.find?_append, List.find?_append, Option.or_assoc, List.find?_singleton]
  simp

end Expr

namespace Expansion

variable {m : Expansion} {p : Position}

/-- An operation on natural numbers gives their exact result if that is a word. -/
theorem operate_exact {config : Config} {operator : Operator} {a b : Int64} {i j : Nat}
    (ha : a.toInt = i) (hb : b.toInt = j) :
    operate config p operator (.integer a) (.integer b) =
      if Int64.maxValue.toInt < operator.exact i j then .error ⟨.overflow, p⟩
      else .ok (.integer (Int64.ofInt (operator.exact i j))) := by
  -- Addition and multiplication of words are those of integers where the result is a word.
  have hresult : operate config p operator (.integer a) (.integer b) =
      (Number.ofInt? (operator.exact i j)).elim (.error ⟨.overflow, p⟩)
        fun n => .ok (.integer n) := by
    cases operator with
    | add =>
      rw [Operator.exact, Int.natCast_add, ← ha, ← hb]
      simp only [operate, Number.add?]
      cases Number.ofInt? (a.toInt + b.toInt) <;> rfl
    | mul =>
      rw [Operator.exact, Int.natCast_mul, ← ha, ← hb]
      simp only [operate, Number.mul?]
      cases Number.ofInt? (a.toInt * b.toInt) <;> rfl
  rw [hresult, Number.ofInt?_natCast]
  by_cases hword : Int64.maxValue.toInt < operator.exact i j
  · rw [if_pos hword, if_pos hword]
    rfl
  · rw [if_neg hword, if_neg hword]
    rfl

/-- An operation gives what its operator makes of what its operands give, first the left one. -/
theorem checked_binary {scopes : List Scope} {operator : Operator} {left right : Expr}
    {i j : Nat} (config : Config) (hleft : left.exactValue? scopes = some i)
    (hright : right.exactValue? scopes = some j) :
    (Expr.binary operator left right p).checked scopes (operator.exact i j) = (do
      let a ← left.checked scopes i
      let b ← right.checked scopes j
      operate config p operator a b) := by
  have hwhole : (Expr.binary operator left right p).exactValue? scopes =
      some (operator.exact i j) :=
    Expr.exactValue?_binary.mpr ⟨i, j, hleft, hright, rfl⟩
  -- An operand without an overflow has its exact value as a word.
  have hword : ∀ {e : Expr} {k : Nat}, e.exactValue? scopes = some k → e.overflow? scopes = none →
      (Int64.ofInt k).toInt = k := fun {e} _ he hnone =>
    Expr.toInt_of_not_exceeds he (Expr.overflow?_eq_none.mp hnone e e.mem_postorder)
  unfold Expr.checked
  rw [Expr.overflow?_binary]
  -- The left operand is looked at first, and the right one if there is no overflow in it.
  cases hl : left.overflow? scopes with
  | some s => rfl
  | none =>
    cases hr : right.overflow? scopes with
    | some s => rfl
    | none =>
      change _ = operate config p operator (.integer (Int64.ofInt i)) (.integer (Int64.ofInt j))
      rw [operate_exact (hword hleft hl) (hword hright hr)]
      by_cases hexceeds : Int64.maxValue.toInt < operator.exact i j
      · rw [if_pos ((Expr.exceeds_iff hwhole).mpr hexceeds), if_pos hexceeds]
        rfl
      · rw [if_neg (mt (Expr.exceeds_iff hwhole).mp hexceeds), if_neg hexceeds]
        rfl

/-- The outcome of an operation, from the outcomes of its operands. -/
theorem exprValue_binary {operator : Operator} {left right : Expr}
    {first second : Except ExpansionFault Value} (hdepth : m.depth < m.config.maxDepth)
    (hleft : exprValue left .nothing m.deeper = settle m.deeper first)
    (hright : exprValue right .nothing m.deeper = settle m.deeper second) (fallback : Fallback) :
    exprValue (.binary operator left right p) fallback m =
      settle m (do
        let a ← first
        let b ← second
        operate m.config p operator a b) := by
  rw [exprValue]
  refine nest_settle hdepth ?_
  rw [bind_apply, hleft]
  -- What the left operand has left is the state that the right one starts in.
  cases first with
  | error e => rfl
  | ok a =>
    change (exprValue right .nothing >>= _) m.deeper = _
    rw [bind_apply, hright]
    cases second with
    | error e => rfl
    | ok b =>
      change ofExcept (operate m.config p operator a b) m.deeper =
        settle m.deeper (operate m.config p operator a b)
      cases operate m.config p operator a b <;> rfl

/-- What an expression with an exact value gives where there are levels for it. -/
theorem exprValue_checked : (e : Expr) → {m : Expansion} → {k : Nat} →
    e.exactValue? m.scopes = some k → m.depth + e.height 1 ≤ m.config.maxDepth →
    (fallback : Fallback) → exprValue e fallback m = settle m (e.checked m.scopes k)
  | .number n q, m, k, he, _, _ => by
    -- A number and a name have their words, which do not overflow.
    have hnone : (Expr.number n q).overflow? m.scopes = none :=
      Expr.overflow?_single rfl (Expr.not_exceeds rfl)
    have hn : n.toInt = k := Int.mem_toNat?.mp he
    rw [Expr.checked, hnone, ← hn, Int64.ofInt_toInt, exprValue]
    rfl
  | .identifier name q, m, k, he, _, fallback => by
    rw [Expr.exactValue?] at he
    split at he
    next n hname =>
      have hnone : (Expr.identifier name q).overflow? m.scopes = none :=
        Expr.overflow?_single rfl (Expr.not_exceeds (n := n) (by rw [Expr.exactValue?, hname]))
      have hn : n.toInt = k := Int.mem_toNat?.mp he
      rw [Expr.checked, hnone, ← hn, Int64.ofInt_toInt, exprValue_identifier hname]
      rfl
    next => cases he
  | .binary operator left right q, m, k, he, hdepth, fallback => by
    obtain ⟨i, j, hleft, hright, rfl⟩ := Expr.exactValue?_binary.mp he
    rw [Expr.height, Nat.add_max_add_right] at hdepth
    have hl := Nat.le_max_left (left.height 1) (right.height 1)
    have hr := Nat.le_max_right (left.height 1) (right.height 1)
    -- The operands are evaluated one level deeper, where the names have the same values.
    have hfirst : exprValue left .nothing m.deeper =
        settle m.deeper (left.checked m.scopes i) :=
      exprValue_checked left (m := m.deeper) hleft (by unfold deeper; dsimp only; omega) .nothing
    have hsecond : exprValue right .nothing m.deeper =
        settle m.deeper (right.checked m.scopes j) :=
      exprValue_checked right (m := m.deeper) hright (by unfold deeper; dsimp only; omega) .nothing
    rw [exprValue_binary (by omega) hfirst hsecond, checked_binary m.config hleft hright]

/-- An expression of natural numbers, of names that have such values, and of sums and products has
an exact value, like all expressions within it, and is evaluated where there are levels enough for
it. It gives the exact value exactly if no expression within it has one that is greater than every
word. Otherwise it fails with an overflow at the operator of the first of these, where each
expression comes after those within it, from left to right. -/
theorem exprValue_exact {e : Expr} {k : Nat} (he : e.exactValue? m.scopes = some k)
    (hdepth : m.depth + e.height 1 ≤ m.config.maxDepth) (fallback : Fallback) :
    (∀ s ∈ e.postorder, ∃ j, s.exactValue? m.scopes = some j) ∧
    ((∃ n : Int64, n.toInt = k ∧ exprValue e fallback m = .ok (.integer n) m) ↔
      ∀ s ∈ e.postorder, ¬ s.Exceeds m.scopes) ∧
    ((∃ s ∈ e.postorder, s.Exceeds m.scopes) →
      ∃ operator left right q,
        e.postorder.find? (·.Exceeds m.scopes) = some (.binary operator left right q) ∧
        exprValue e fallback m = .error ⟨.overflow, q⟩ m) := by
  have hvalue := exprValue_checked e he hdepth fallback
  refine ⟨Expr.exactValue?_within e he, ⟨?_, fun hnone => ?_⟩, ?_⟩
  -- A result of the operation leaves no room for an overflow, since this would be the outcome.
  · rintro ⟨n, -, hok⟩
    rw [← Expr.overflow?_eq_none]
    cases hfirst : e.overflow? m.scopes with
    | none => rfl
    | some s =>
      rw [hvalue, Expr.checked, hfirst] at hok
      cases hok
  · rw [Expr.checked, Expr.overflow?_eq_none.mpr hnone] at hvalue
    exact ⟨_, Expr.toInt_of_not_exceeds he (hnone e e.mem_postorder), hvalue⟩
  · rintro ⟨s, hs, hexceeds⟩
    -- The first expression that exceeds the words is an operation, whose operator is blamed.
    cases hfirst : e.overflow? m.scopes with
    | none => exact absurd hexceeds (Expr.overflow?_eq_none.mp hfirst s hs)
    | some s =>
      obtain ⟨operator, left, right, q, rfl⟩ := (Expr.exceeds_of_overflow? hfirst).eq_binary
      rw [Expr.checked, hfirst] at hvalue
      exact ⟨operator, left, right, q, hfirst, hvalue⟩

/-- Two operations overflow, and their results are multiplied by zero; the first one is reported. -/
theorem exprValue_exact_times_zero :
    let m := (Expansion.new {}).define "n" (.integer 3037000500)
    let n (p : Position) : Expr := .identifier "n" p
    let sum : Expr := .binary .add (n ⟨1, 6⟩) (.number Int64.maxValue ⟨1, 10⟩) ⟨1, 8⟩
    let square : Expr := .binary .mul (n ⟨1, 33⟩) (n ⟨1, 37⟩) ⟨1, 35⟩
    let e : Expr := .binary .add (.binary .mul (.number 0 ⟨1, 1⟩) sum ⟨1, 3⟩)
      (.binary .mul square (.number 0 ⟨1, 41⟩) ⟨1, 39⟩) ⟨1, 31⟩
    e.exactValue? m.scopes = some 0 ∧ m.depth + e.height 1 ≤ m.config.maxDepth ∧
      sum.Exceeds m.scopes ∧ square.Exceeds m.scopes ∧
      exprValue e .nothing m = .error ⟨.overflow, ⟨1, 8⟩⟩ m := by
  intro m n sum square e
  have he : e.exactValue? m.scopes = some 0 := by decide
  have hdepth : m.depth + e.height 1 ≤ m.config.maxDepth := by decide
  have hsum : sum.Exceeds m.scopes := by decide
  obtain ⟨operator, left, right, q, hfirst, herror⟩ :=
    (exprValue_exact he hdepth .nothing).2.2 ⟨sum, by simp [e, Expr.postorder, sum.mem_postorder],
      hsum⟩
  -- The sum comes first, since it stands further left than the square.
  have hplace : e.postorder.find? (·.Exceeds m.scopes) = some sum := rfl
  obtain ⟨-, -, -, rfl⟩ := Expr.binary.inj (Option.some.inj (hfirst.symm.trans hplace))
  exact ⟨he, hdepth, hsum, by decide, herror⟩

end Expansion

end HandTemplate
