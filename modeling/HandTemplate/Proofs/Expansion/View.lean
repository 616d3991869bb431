import Mathlib
import HandTemplate.Proofs.Expansion.Refinement

/-!
# Evaluating in a view

When a step that only reads succeeds in a view, for each way of putting such steps together. So the
value of a call is what a builtin gives for the values of its arguments: `run_callValue`.
-/

namespace HandTemplate

namespace Expansion.View

open Outcome (bind_eq_ok)

variable {α β : Type} {v : View}

/-- In a view, two steps that only read succeed one after the other. -/
theorem run_bind {step : Step α} (hstep : ReadOnly step) {next : α → Step β}
    {b : β} : v.run (step >>= next) = .ok b ↔ ∃ a, v.run step = .ok a ∧ v.run (next a) = .ok b := by
  have hrun : v.run (step >>= next) = v.run step >>= fun a => v.run (next a) := by
    have hview : v.state.view = v := rfl
    unfold View.run
    rw [bind_apply, hstep.eq, hview]
    unfold View.run
    cases step v.state <;> rfl
  rw [hrun, bind_eq_ok]

/-- In a view, a step one level deeper succeeds if there is such a level and the step succeeds
there. -/
theorem run_nest {p : Position} {step : Step α} {a : α} :
    v.run (nest p step) = .ok a ↔
      v.depth < v.config.maxDepth ∧ View.run { v with depth := v.depth + 1 } step = .ok a := by
  have hdeeper : { v.state with depth := v.state.depth + 1 } =
      View.state { v with depth := v.depth + 1 } := rfl
  have hlimit : v.state.config.maxDepth ≤ v.state.depth ↔ v.config.maxDepth ≤ v.depth := Iff.rfl
  unfold View.run nest
  rw [hdeeper]
  by_cases hdepth : v.config.maxDepth ≤ v.depth
  · simp [hlimit, hdepth, Nat.not_lt.mpr hdepth]
  · have hlt : v.depth < v.config.maxDepth := by omega
    simp only [hlimit, hdepth, if_false, hlt, true_and]
    cases step (View.state { v with depth := v.depth + 1 }) <;> rfl

/-- In a view, expressions have values exactly if each of them has. -/
theorem run_exprValues {es : List Expr} {fallback : Fallback} {vs : List Value} :
    v.run (exprValues es fallback) = .ok vs ↔
      List.Forall₂ (fun e a => v.run (exprValue e fallback) = .ok a) es vs := by
  -- By induction on the expressions, each of which only reads.
  induction es generalizing vs with
  | nil =>
    rw [List.forall₂_nil_left_iff]
    change Except.ok [] = Except.ok vs ↔ _
    rw [Except.ok.injEq]
    exact eq_comm
  | cons e es ih =>
    rw [exprValues, run_bind (exprValue_readOnly e fallback), List.forall₂_cons_left_iff]
    simp only [run_bind (exprValues_readOnly es fallback), ih]
    constructor
    · rintro ⟨a, ha, vs, hvs, h⟩
      cases h
      exact ⟨a, vs, ha, hvs, rfl⟩
    · rintro ⟨a, vs, ha, hvs, rfl⟩
      exact ⟨a, ha, vs, hvs, rfl⟩

/-- In a view, a name has the value that it is bound to, or if it is bound to nothing and may stand
for itself the symbol of the same name. -/
theorem run_nameValue {name : String} {p : Position} {fallback : Fallback} {a : Value} :
    v.run (nameValue name p fallback) = .ok a ↔
      lookup name v.scopes = some a ∨
        (lookup name v.scopes = none ∧ (fallback = .symbol && v.config.symbolAtoms) = true ∧
          .symbol name = a) := by
  -- What a view shows of its state are its scopes and its configuration.
  have hvalue : v.state.valueOf? name = lookup name v.scopes := rfl
  have hconfig : v.state.config = v.config := rfl
  unfold View.run nameValue
  rw [bind_apply, get_apply]
  simp only [hvalue, hconfig]
  -- A name that is bound has its value, whatever may become of others.
  cases lookup name v.scopes with
  | some value =>
    constructor
    · intro h
      cases h
      exact .inl rfl
    · rintro (h | ⟨h, -⟩)
      · cases h
        rfl
      · cases h
  | none =>
    by_cases hatoms : (fallback = .symbol && v.config.symbolAtoms) = true
    · simp only [hatoms, if_true]
      constructor
      · intro h
        cases h
        exact .inr ⟨trivial, trivial, rfl⟩
      · rintro (h | ⟨-, -, rfl⟩)
        · cases h
        · rfl
    · simp only [hatoms]
      constructor
      · intro h
        cases h
      · rintro (h | ⟨-, h, -⟩)
        · cases h
        · cases h

/-- In a view, a called name stands for a builtin exactly if it is bound to one that there is. -/
theorem run_callee {name : String} {p : Position} {b : Builtin} :
    v.run (callee name p) = .ok b ↔
      ∃ bound, lookup name v.scopes = some (.builtin bound) ∧ Builtin.ofName? bound = some b := by
  have hvalue : v.state.valueOf? name = lookup name v.scopes := rfl
  unfold View.run callee
  rw [bind_apply, get_apply]
  simp only [hvalue]
  -- Of all values only the name of a builtin that there is can be called.
  cases lookup name v.scopes with
  | none =>
    constructor
    · intro h
      cases h
    · rintro ⟨_, h, -⟩
      cases h
  | some value =>
    cases value with
    | builtin bound =>
      dsimp only
      cases hname : Builtin.ofName? bound with
      | none =>
        constructor
        · intro h
          cases h
        · rintro ⟨_, h, hb⟩
          cases h
          rw [hname] at hb
          cases hb
      | some builtin =>
        constructor
        · intro h
          cases h
          exact ⟨bound, rfl, hname⟩
        · rintro ⟨_, h, hb⟩
          cases h
          rw [hname] at hb
          cases hb
          rfl
    | _ =>
      constructor
      · intro h
        cases h
      · rintro ⟨_, h, -⟩
        cases h

/-- In a view, a call has a value exactly if its name stands for a builtin, its arguments have
values, as many as the builtin takes, and the builtin gives the value for these. -/
theorem run_callValue {name : String} {arguments : List Expr} {p : Position} {a : Value} :
    v.run (callValue name arguments p) = .ok a ↔
      ∃ b, v.run (callee name p) = .ok b ∧ v.depth < v.config.maxDepth ∧
        ∃ vs, View.run { v with depth := v.depth + 1 } (exprValues arguments b.fallback) = .ok vs ∧
          b.arity.accepts vs.length = true ∧ b.apply v.config p vs = .ok a := by
  -- With the arguments given, what is left is to count them and to apply the builtin.
  have happly : ∀ (b : Builtin) (vs : List Value),
      View.run { v with depth := v.depth + 1 } (do
        if b.arity.accepts vs.length then ofExcept (b.apply (← get).config p vs)
        else throw ⟨.wrongCount name b.arity vs.length, p⟩ : Step Value) = .ok a ↔
        b.arity.accepts vs.length = true ∧ b.apply v.config p vs = .ok a := by
    intro b vs
    cases b.arity.accepts vs.length with
    | false =>
      constructor
      · intro h
        cases h
      · rintro ⟨h, -⟩
        cases h
    | true =>
      change View.run _ (ofExcept (b.apply v.config p vs)) = _ ↔ _
      cases b.apply v.config p vs with
      | error e =>
        constructor
        · intro h
          cases h
        · rintro ⟨-, h⟩
          cases h
      | ok w => exact ⟨fun h => ⟨rfl, h⟩, fun h => h.2⟩
  unfold callValue callWith
  rw [run_bind (callee_readOnly name p)]
  refine exists_congr fun b => and_congr_right fun _ => ?_
  rw [run_nest, run_bind (exprValues_readOnly arguments b.fallback)]
  exact and_congr_right fun _ => exists_congr fun vs => and_congr_right fun _ => happly b vs

end Expansion.View

end HandTemplate
