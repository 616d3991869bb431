import HandTemplate.Expansion.Evaluation

/-!
# Steps that only read the state

Evaluating an expression changes nothing: whether it gives a value or fails, the state is afterwards
what it was before, and the outcome depends on the scopes, the limits and the depth alone, not on
the tiles and variations made so far. Main statement: `exprValue_eq`, with `callValue_eq` for calls
that stand as statements.
-/

namespace HandTemplate

namespace Expansion

/-- What the value of an expression depends on. -/
structure View where
  /-- The scopes, the innermost first. -/
  scopes : List Scope
  /-- The limits. -/
  config : Config
  /-- How many loops and calls are running. -/
  depth : Nat

/-- What the values of expressions depend on in a state. -/
def view (m : Expansion) : View := ⟨m.scopes, m.config, m.depth⟩

/-- The outcome of a step as the step ends with it that leaves the state `m` behind. -/
def settle {α : Type} (m : Expansion) :
    Except ExpansionFault α → EStateM.Result ExpansionFault Expansion α
  | .ok value => .ok value m
  | .error e => .error e m

/-- A state with a given view, in which nothing is made yet. -/
def View.state (v : View) : Expansion :=
  { Expansion.new v.config with scopes := v.scopes, depth := v.depth }

/-- The outcome of a step where only a view of the state is known. -/
def View.run {α : Type} (v : View) (step : Step α) : Except ExpansionFault α :=
  match step v.state with
  | .ok value _ => .ok value
  | .error e _ => .error e

/-- What two steps do one after the other. -/
theorem bind_apply {α β : Type} (step : Step α) (next : α → Step β) (m : Expansion) :
    (step >>= next) m = match step m with
      | .ok value m' => next value m'
      | .error e m' => .error e m' := by
  change EStateM.bind step next m = _
  unfold EStateM.bind
  cases step m <;> rfl

/-- The state that is read is the state. -/
theorem get_apply (m : Expansion) : (get : Step Expansion) m = .ok m m := rfl

/-- A step that leaves every state as it is and whose outcome depends on its view only. -/
def ReadOnly {α : Type} (step : Step α) : Prop :=
  ∃ read : View → Except ExpansionFault α, ∀ m, step m = settle m (read m.view)

namespace ReadOnly

variable {α β : Type}

/-- A step that only reads gives in every state what it gives for the view of that state. -/
theorem eq {step : Step α} (h : ReadOnly step) (m : Expansion) :
    step m = settle m (m.view.run step) := by
  obtain ⟨read, hread⟩ := h
  -- The state of a view has that view again, so the outcome there is the outcome everywhere.
  have hrun : m.view.run step = read m.view := by
    unfold View.run
    rw [hread]
    have hview : m.view.state.view = m.view := rfl
    rw [hview]
    cases read m.view <;> rfl
  rw [hrun, hread]

/-- A computation that looks at nothing. -/
theorem ofExcept (r : Except ExpansionFault α) : ReadOnly (ofExcept r) :=
  ⟨fun _ => r, fun _ => by cases r <;> rfl⟩

/-- A step that only gives a value only reads. -/
theorem pure (value : α) : ReadOnly (pure value : Step α) := ⟨fun _ => .ok value, fun _ => rfl⟩

/-- Two steps that only read, one after the other. -/
theorem bind {step : Step α} {next : α → Step β} (h : ReadOnly step)
    (hnext : ∀ value, ReadOnly (next value)) : ReadOnly (step >>= next) := by
  refine ⟨fun v => v.run step >>= fun value => v.run (next value), fun m => ?_⟩
  rw [bind_apply, h.eq m]
  dsimp only
  cases m.view.run step with
  | error e => rfl
  | ok value => exact (hnext value).eq m

/-- A step that looks at the state, but only at its view, and then only reads. -/
theorem get {next : Expansion → Step α} (hview : ∀ m, next m = next m.view.state)
    (hnext : ∀ m, ReadOnly (next m)) : ReadOnly (get >>= next) := by
  refine ⟨fun v => v.run (next v.state), fun m => ?_⟩
  rw [bind_apply, get_apply]
  dsimp only
  rw [hview m]
  exact (hnext m.view.state).eq m

/-- One level deeper, a step that only reads still does. -/
theorem nest {step : Step α} (position : Position) (h : ReadOnly step) :
    ReadOnly (nest position step) := by
  refine ⟨fun v => if v.config.maxDepth ≤ v.depth then .error ⟨.tooDeep v.config.maxDepth, position⟩
    else View.run { v with depth := v.depth + 1 } step, fun m => ?_⟩
  change (if m.config.maxDepth ≤ m.depth then _ else _) =
    settle m (if m.config.maxDepth ≤ m.depth then _ else _)
  split
  · rfl
  · rw [h.eq]
    -- The level is given back, whether the step succeeds or fails.
    change (match settle _ (View.run ⟨m.scopes, m.config, m.depth + 1⟩ step) with
      | .ok value m' => .ok value { m' with depth := m'.depth - 1 }
      | .error e m' => .error e { m' with depth := m'.depth - 1 }) =
        settle m (View.run ⟨m.scopes, m.config, m.depth + 1⟩ step)
    cases View.run ⟨m.scopes, m.config, m.depth + 1⟩ step <;> rfl

end ReadOnly

/-- The value of a name is only read. -/
theorem nameValue_readOnly (name : String) (position : Position) (fallback : Fallback) :
    ReadOnly (nameValue name position fallback) := by
  refine .get (fun _ => rfl) fun m => ?_
  split
  · exact .pure _
  · split
    · exact .pure _
    · exact .ofExcept (.error _)

/-- The builtin that a name calls is only read. -/
theorem callee_readOnly (name : String) (position : Position) :
    ReadOnly (callee name position) := by
  refine .get (fun _ => rfl) fun m => ?_
  split
  · split
    · exact .pure _
    · exact .ofExcept (.error _)
  · exact .ofExcept (.error _)

/-- A call only reads if its arguments do. -/
theorem callWith_readOnly (name : String) (position : Position)
    {arguments : Fallback → Step (List Value)} (h : ∀ fallback, ReadOnly (arguments fallback)) :
    ReadOnly (callWith name position arguments) := by
  refine (callee_readOnly name position).bind fun builtin => .nest position ?_
  refine (h builtin.fallback).bind fun values => ?_
  split
  · exact .get (fun _ => rfl) fun _ => .ofExcept _
  · exact .ofExcept (.error _)

mutual

/-- The value of an expression is only read. -/
theorem exprValue_readOnly : (e : Expr) → (fallback : Fallback) → ReadOnly (exprValue e fallback)
  | .number _ _, _ => .pure _
  | .text _ _, _ => .pure _
  | .tile _ _, _ => .pure _
  | .identifier name p, fallback => nameValue_readOnly name p fallback
  | .range _ _ _, _ => .get (fun _ => rfl) fun _ => .ofExcept _
  | .tuple elements p, _ =>
    .nest p ((exprValues_readOnly elements .symbol).bind fun _ => .pure _)
  | .call name arguments p, _ =>
    callWith_readOnly name p fun fallback => exprValues_readOnly arguments fallback
  | .index target place p, _ =>
    .nest p ((exprValue_readOnly target .nothing).bind fun _ =>
      (exprValue_readOnly place .nothing).bind fun _ => .ofExcept _)
  | .binary _ left right p, _ =>
    .nest p ((exprValue_readOnly left .nothing).bind fun _ =>
      (exprValue_readOnly right .nothing).bind fun _ => .get (fun _ => rfl) fun _ => .ofExcept _)

/-- The values of expressions are only read. -/
theorem exprValues_readOnly :
    (es : List Expr) → (fallback : Fallback) → ReadOnly (exprValues es fallback)
  | [], _ => .pure _
  | e :: es, fallback =>
    (exprValue_readOnly e fallback).bind fun _ =>
      (exprValues_readOnly es fallback).bind fun _ => .pure _

end

/-- The value of an expression in any state is its value for the view of that state, and the state
is left as it is. -/
theorem exprValue_eq (e : Expr) (fallback : Fallback) (m : Expansion) :
    exprValue e fallback m = settle m (m.view.run (exprValue e fallback)) :=
  (exprValue_readOnly e fallback).eq m

/-- The same for a call that stands as a statement. -/
theorem callValue_eq (name : String) (arguments : List Expr) (position : Position)
    (m : Expansion) : callValue name arguments position m =
      settle m (m.view.run (callValue name arguments position)) :=
  (callWith_readOnly name position fun fallback => exprValues_readOnly arguments fallback).eq m

/-- The value of a name that is bound. -/
theorem exprValue_identifier {name : String} {position : Position} {fallback : Fallback} {v : Value}
    {m : Expansion} (h : m.valueOf? name = some v) :
    exprValue (.identifier name position) fallback m = .ok v m := by
  rw [exprValue, nameValue, bind_apply, get_apply]
  dsimp only
  rw [h]
  rfl

/-- The value of a range literal is that of the builtin at its bounds. -/
theorem exprValue_interval (first last : Int64) (position : Position) (fallback : Fallback)
    (m : Expansion) : exprValue (.range first last position) fallback m =
      settle m (Builtin.interval first last m.config position) := by
  rw [exprValue, bind_apply, get_apply]
  dsimp only
  cases Builtin.interval first last m.config position <;> rfl

end Expansion

end HandTemplate
