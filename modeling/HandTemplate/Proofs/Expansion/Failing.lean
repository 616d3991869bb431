import HandTemplate.Proofs.Expansion.Refinement

/-!
# Steps that fail

When a step fails, and with which fault, for each way of putting steps together. What state a fault
leaves behind is of interest here only where it is the state before.
-/

namespace HandTemplate

namespace Expansion

variable {α β : Type} {m : Expansion} {e : ExpansionFault}

/-- A step fails in a state with a fault. -/
def Fails (step : Step α) (m : Expansion) (e : ExpansionFault) : Prop := ∃ m', step m = .error e m'

/-- The state one level deeper. -/
def deeper (m : Expansion) : Expansion := { m with depth := m.depth + 1 }

/-- A step that only gives a value does not fail. -/
@[simp] theorem not_fails_pure (a : α) : ¬ Fails (pure a : Step α) m e := fun ⟨_, h⟩ => nomatch h

/-- A step that only changes the state does not fail. -/
@[simp] theorem not_fails_modify (f : Expansion → Expansion) : ¬ Fails (modify f) m e :=
  fun ⟨_, h⟩ => nomatch h

/-- A step that raises a fault fails with this one. -/
@[simp] theorem fails_throw {e' : ExpansionFault} : Fails (throw e' : Step α) m e ↔ e' = e :=
  ⟨fun ⟨_, h⟩ => by cases h; rfl, fun h => ⟨m, by rw [h]; rfl⟩⟩

/-- What needs no state fails with the fault that it is. -/
@[simp] theorem fails_ofExcept {r : Except ExpansionFault α} :
    Fails (ofExcept r) m e ↔ r = .error e := by
  cases r with
  | ok a => exact ⟨fun ⟨_, h⟩ => (nomatch h), fun h => (nomatch h)⟩
  | error e' => exact ⟨fun ⟨_, h⟩ => by cases h; rfl, fun h => by cases h; exact ⟨m, rfl⟩⟩

/-- Two steps in a row fail where the first one does or the second one after it. -/
theorem fails_bind {step : Step α} {next : α → Step β} :
    Fails (step >>= next) m e ↔
      Fails step m e ∨ ∃ a m', step m = .ok a m' ∧ Fails (next a) m' e := by
  unfold Fails
  rw [bind_apply]
  cases step m with
  | error e' m' => simp
  | ok a m' =>
    constructor
    · exact fun h => .inr ⟨a, m', rfl, h⟩
    · rintro (⟨_, h⟩ | ⟨_, _, h, hnext⟩)
      · cases h
      · cases h
        exact hnext

/-- Two steps in a row of which the first gives nothing. -/
theorem fails_seq {step : Step Unit} {next : Step α} :
    Fails (do step; next) m e ↔
      Fails step m e ∨ ∃ m', step m = .ok () m' ∧ Fails next m' e := by
  rw [fails_bind]
  exact or_congr_right ⟨fun ⟨_, m', h⟩ => ⟨m', h⟩, fun ⟨m', h⟩ => ⟨(), m', h⟩⟩

/-- A step that reads the state fails as it does with what it read. -/
@[simp] theorem fails_get {next : Expansion → Step α} :
    Fails (get >>= next) m e ↔ Fails (next m) m e := by
  unfold Fails
  rw [bind_apply, get_apply]

/-- A result that is only rearranged changes no fault. -/
@[simp] theorem fails_map {step : Step α} {f : α → β} :
    Fails (f <$> step) m e ↔ Fails step m e := by
  rw [map_eq_pure_bind, fails_bind]
  simp only [not_fails_pure, and_false, exists_false, or_false]

/-- A step that only reads is followed in the same state. -/
theorem fails_bind_readOnly {step : Step α} (hstep : ReadOnly step) {next : α → Step β} :
    Fails (step >>= next) m e ↔
      Fails step m e ∨ ∃ a, step m = .ok a m ∧ Fails (next a) m e := by
  have hsame : ∀ a m', step m = .ok a m' → m' = m := by
    intro a m' h
    rw [hstep.eq m, settle_eq_ok] at h
    exact h.2
  rw [fails_bind]
  refine or_congr_right ⟨?_, fun ⟨a, h, hnext⟩ => ⟨a, m, h, hnext⟩⟩
  rintro ⟨a, m', h, hnext⟩
  obtain rfl := hsame a m' h
  exact ⟨a, h, hnext⟩

/-- A step one level deeper fails if there is no such level, or if the step fails there. -/
theorem fails_nest {p : Position} {step : Step α} :
    Fails (nest p step) m e ↔
      (m.config.maxDepth ≤ m.depth ∧ ⟨.tooDeep m.config.maxDepth, p⟩ = e) ∨
        (m.depth < m.config.maxDepth ∧ Fails step m.deeper e) := by
  unfold Fails nest deeper
  by_cases hdepth : m.config.maxDepth ≤ m.depth
  · simp [hdepth, Nat.not_lt.mpr hdepth]
  · have hlt : m.depth < m.config.maxDepth := by omega
    simp only [hdepth, hlt, if_false, false_and, true_and, false_or]
    cases step { m with depth := m.depth + 1 } <;> simp

/-- One level deeper, two steps do the same if they do so in the state of that level. -/
theorem nest_congr {first second : Step α} (h : first m.deeper = second m.deeper)
    (position : Position) : nest position first m = nest position second m := by
  unfold deeper at h
  unfold nest
  rw [h]

/-- There is no level for a step. -/
theorem nest_tooDeep (step : Step α) {position : Position}
    (hdepth : m.config.maxDepth ≤ m.depth) :
    nest position step m = .error ⟨.tooDeep m.config.maxDepth, position⟩ m := by
  rw [nest, if_pos hdepth]

/-- One level deeper, a step that leaves the state as it is has the same outcome. -/
theorem nest_settle {step : Step α} {position : Position} {r : Except ExpansionFault α}
    (hdepth : m.depth < m.config.maxDepth) (h : step m.deeper = settle m.deeper r) :
    nest position step m = settle m r := by
  unfold deeper at h
  rw [nest, if_neg (Nat.not_le.mpr hdepth), h]
  cases r <;> rfl

/-- One level deeper, a step that fails and leaves the state as it is still does. -/
theorem nest_of_error {step : Step α} {position : Position}
    (hdepth : m.depth < m.config.maxDepth) (h : step m.deeper = .error e m.deeper) :
    nest position step m = .error e m :=
  nest_settle hdepth (r := .error e) h

/-- A step in a scope of its own fails where the step does. -/
@[simp] theorem fails_inScope {step : Step α} :
    Fails (inScope step) m e ↔ Fails step m.openScope e := by
  unfold Fails inScope
  cases step m.openScope <;> simp

/-- The turn of a loop for one element of its source. -/
def turn (binding : Binding) (body : List Statement) (position : Position) (item : Value) :
    Step Unit :=
  inScope do
    assign binding item position
    runBlock body position

/-- A walk over a source goes over the elements of its value, for a range as well. -/
theorem forEach_eq (source : Expr) (step : Value → Step Unit) :
    forEach source step = (do
      let value ← exprValue source .nothing
      match value.elements? with
      | some values => forValues step values
      | none => throw ⟨.noElements source.words value.type, source.position⟩) := by
  cases source with
  | range first last p =>
    -- A range is walked over by counting, which gives the same integers as its list.
    have hvalues : (Number.range first last).map Value.integer =
        (List.range (Number.count first last)).map
          fun i : Nat => .integer (Int64.ofInt (first.toInt + i)) := by
      simp [Number.range]
    funext m
    simp only [forEach, exprValue, Builtin.interval]
    rw [bind_apply, bind_apply, bind_apply, get_apply]
    dsimp only
    rw [bind_apply]
    cases checkCount "range" (Number.count first last) m.config p with
    | error e => rfl
    | ok _ =>
      change forRange step _ _ m = forValues step ((Number.range first last).map .integer) m
      rw [Context.forRange_eq, hvalues]
  | _ => rfl

/-- A walk over a source takes its steps for the elements of the value that the source has. -/
theorem forEach_of_value {source : Expr} {v : Value} {items : List Value}
    (hvalue : exprValue source .nothing m = .ok v m) (hitems : v.elements? = some items)
    (step : Value → Step Unit) : forEach source step m = forValues step items m := by
  rw [forEach_eq, bind_apply, hvalue]
  dsimp only
  rw [hitems]

/-- A walk over a source that has no value fails before its first step. -/
theorem forEach_of_error {source : Expr}
    (hvalue : exprValue source .nothing m = .error e m) (step : Value → Step Unit) :
    forEach source step m = .error e m := by
  rw [forEach_eq, bind_apply, hvalue]

/-! ## Blocks and loops -/

/-- A check fails exactly if the limit does not allow the number. -/
theorem checkCount_eq_error {what : String} {found : Nat} {config : Config} {p : Position} :
    checkCount what found config p = .error e ↔
      config.maxItems < found ∧ ⟨.tooMany what found config.maxItems, p⟩ = e := by
  unfold checkCount
  split
  next h => simp [h]
  next h => simp [h]

/-- A variation is finished unless there are as many as the limit allows. -/
theorem fails_finish {p : Position} :
    Fails (finish p) m e ↔
      checkCount "variations" (m.variations.size + 1) m.config p = .error e := by
  unfold finish
  rw [fails_get, fails_bind]
  simp only [fails_ofExcept, not_fails_modify, and_false, exists_false, or_false]

/-- A block fails in its statements, or when it has no loops and finishes a variation too many. -/
theorem fails_runBlock {statements : List Statement} {p : Position} :
    Fails (runBlock statements p) m e ↔
      Fails (runAll statements m.variations.size false) m e ∨
        ∃ m', runAll statements m.variations.size false m = .ok () m' ∧
          statements.any Statement.isLoop = false ∧ m'.buffer.isEmpty = false ∧
          checkCount "variations" (m'.variations.size + 1) m'.config
            ((statements.getLast?.map Statement.position).getD p) = .error e := by
  unfold runBlock block
  rw [fails_get, fails_seq]
  refine or_congr_right (exists_congr fun m' => and_congr_right fun _ => ?_)
  -- After its statements a block without loops finishes a variation if there are tiles for one.
  cases hloop : statements.any Statement.isLoop with
  | true => simp only [Bool.not_true, Bool.false_eq_true, if_false, not_fails_modify, reduceCtorEq,
      false_and]
  | false =>
    simp only [Bool.not_false, if_true, fails_get]
    cases hbuffer : m'.buffer.isEmpty with
    | true => simp only [if_true, not_fails_modify, reduceCtorEq, false_and, and_false]
    | false =>
      rw [if_neg Bool.false_ne_true, fails_seq, fails_finish]
      simp only [not_fails_modify, and_false, exists_false, or_false, true_and]

/-- Statements fail if the first one does, or the others after it. -/
theorem fails_runAll_cons {s : Statement} {statements : List Statement} {first : Nat}
    {looped : Bool} :
    Fails (runAll (s :: statements) first looped) m e ↔
      Fails (run s first looped) m e ∨ ∃ m', run s first looped m = .ok () m' ∧
        Fails (runAll statements first (looped || s.isLoop)) m' e := by
  rw [runAll, fails_seq]

/-- An assignment fails if its value does, or if the value does not fit its target. -/
theorem fails_assignment {target : Binding} {value : Expr} {p : Position} {first : Nat}
    {looped : Bool} :
    Fails (run (.assign target value p) first looped) m e ↔
      Fails (exprValue value .nothing) m e ∨
        ∃ v, exprValue value .nothing m = .ok v m ∧ Fails (assign target v p) m e := by
  rw [run, fails_bind_readOnly (exprValue_readOnly value .nothing)]

/-- No tiles are refused. -/
theorem not_fails_addTiles {tiles : List String} {first : Nat} {looped : Bool} :
    ¬ Fails (addTiles tiles first looped) m e := by
  unfold addTiles
  split <;> simp only [fails_bind, not_fails_modify, and_false, exists_false, or_false,
    not_false_eq_true]

/-- A call that stands as a statement fails where the call does: tiles are always added. -/
theorem fails_callStatement {name : String} {arguments : List Expr} {p : Position} {first : Nat}
    {looped : Bool} :
    Fails (run (.call name arguments p) first looped) m e ↔
      Fails (callValue name arguments p) m e := by
  rw [run, fails_bind]
  refine or_iff_left ?_
  rintro ⟨v, m', -, hadd⟩
  cases v with
  | group g => exact not_fails_addTiles hadd
  | _ => exact not_fails_pure () hadd

/-- A loop fails for its depth, in its source or for want of elements there, or in a turn. -/
theorem fails_foreach {binding : Binding} {source : Expr} {body : List Statement} {p : Position}
    {first : Nat} {looped : Bool} :
    Fails (run (.foreach binding source body p) first looped) m e ↔
      (m.config.maxDepth ≤ m.depth ∧ ⟨.tooDeep m.config.maxDepth, p⟩ = e) ∨
        (m.depth < m.config.maxDepth ∧
          (Fails (exprValue source .nothing) m.deeper e ∨
            ∃ v, exprValue source .nothing m.deeper = .ok v m.deeper ∧
              ((v.elements? = none ∧ ⟨.noElements source.words v.type, source.position⟩ = e) ∨
                ∃ items, v.elements? = some items ∧
                  Fails (forValues (turn binding body p) items) m.deeper e))) := by
  have hrun : run (.foreach binding source body p) first looped =
      nest p (forEach source (turn binding body p)) := rfl
  rw [hrun, fails_nest, forEach_eq, fails_bind_readOnly (exprValue_readOnly source .nothing)]
  refine or_congr_right (and_congr_right fun _ => or_congr_right (exists_congr fun v =>
    and_congr_right fun _ => ?_))
  cases v.elements? <;> simp

/-- A loop over values fails if its step fails for the first one, or for another one later. -/
theorem fails_forValues_cons {step : Value → Step Unit} {item : Value} {items : List Value} :
    Fails (forValues step (item :: items)) m e ↔
      Fails (step item) m e ∨
        ∃ m', step item m = .ok () m' ∧ Fails (forValues step items) m' e := by
  rw [forValues, fails_seq]

/-- A turn of a loop fails if its value does not fit the binding, or if its body fails. -/
theorem fails_turn {binding : Binding} {body : List Statement} {p : Position} {item : Value} :
    Fails (turn binding body p item) m e ↔
      Fails (assign binding item p) m.openScope e ∨
        ∃ m', assign binding item p m.openScope = .ok () m' ∧ Fails (runBlock body p) m' e := by
  rw [turn, fails_inScope, fails_seq]

/-! ## Expressions -/

/-- A call fails for its name, for its depth, in its arguments, or for the number of these or what
they are. -/
theorem fails_callValue {name : String} {arguments : List Expr} {p : Position} :
    Fails (callValue name arguments p) m e ↔
      Fails (callee name p) m e ∨ ∃ b, callee name p m = .ok b m ∧
        ((m.config.maxDepth ≤ m.depth ∧ ⟨.tooDeep m.config.maxDepth, p⟩ = e) ∨
          (m.depth < m.config.maxDepth ∧
            (Fails (exprValues arguments b.fallback) m.deeper e ∨
              ∃ vs, exprValues arguments b.fallback m.deeper = .ok vs m.deeper ∧
                ((b.arity.accepts vs.length = false ∧
                    ⟨.wrongCount name b.arity vs.length, p⟩ = e) ∨
                  (b.arity.accepts vs.length = true ∧ b.apply m.config p vs = .error e))))) := by
  unfold callValue callWith
  rw [fails_bind_readOnly (callee_readOnly name p)]
  refine or_congr_right (exists_congr fun b => and_congr_right fun _ => ?_)
  rw [fails_nest, fails_bind_readOnly (exprValues_readOnly arguments b.fallback)]
  refine or_congr_right (and_congr_right fun _ => or_congr_right (exists_congr fun vs =>
    and_congr_right fun _ => ?_))
  cases b.arity.accepts vs.length <;> simp [deeper]

/-- A range fails exactly if it has too many integers. -/
theorem fails_range {first last : Int64} {p : Position} {fallback : Fallback} :
    Fails (exprValue (.range first last p) fallback) m e ↔
      Builtin.interval first last m.config p = .error e := by
  simp [exprValue]

/-- A tuple fails if there is no level left for it, or if one of its elements does. -/
theorem fails_tuple {elements : List Expr} {p : Position} {fallback : Fallback} :
    Fails (exprValue (.tuple elements p) fallback) m e ↔
      (m.config.maxDepth ≤ m.depth ∧ ⟨.tooDeep m.config.maxDepth, p⟩ = e) ∨
        (m.depth < m.config.maxDepth ∧ Fails (exprValues elements .symbol) m.deeper e) := by
  rw [exprValue, fails_nest]
  simp

/-- An index fails if there is no level left for it, if the list or the place does, or if there is
no such item. -/
theorem fails_index {target place : Expr} {p : Position} {fallback : Fallback} :
    Fails (exprValue (.index target place p) fallback) m e ↔
      (m.config.maxDepth ≤ m.depth ∧ ⟨.tooDeep m.config.maxDepth, p⟩ = e) ∨
        (m.depth < m.config.maxDepth ∧
          (Fails (exprValue target .nothing) m.deeper e ∨
            ∃ v, exprValue target .nothing m.deeper = .ok v m.deeper ∧
              (Fails (exprValue place .nothing) m.deeper e ∨
                ∃ i, exprValue place .nothing m.deeper = .ok i m.deeper ∧
                  itemAt p v i = .error e))) := by
  rw [exprValue, fails_nest, fails_bind_readOnly (exprValue_readOnly target .nothing)]
  simp only [fails_bind_readOnly (exprValue_readOnly place .nothing), fails_ofExcept]

/-- An operation fails if there is no level left for it, if one of its operands does, or if the
operator refuses their values. -/
theorem fails_binary {operator : Operator} {left right : Expr} {p : Position}
    {fallback : Fallback} :
    Fails (exprValue (.binary operator left right p) fallback) m e ↔
      (m.config.maxDepth ≤ m.depth ∧ ⟨.tooDeep m.config.maxDepth, p⟩ = e) ∨
        (m.depth < m.config.maxDepth ∧
          (Fails (exprValue left .nothing) m.deeper e ∨
            ∃ v, exprValue left .nothing m.deeper = .ok v m.deeper ∧
              (Fails (exprValue right .nothing) m.deeper e ∨
                ∃ w, exprValue right .nothing m.deeper = .ok w m.deeper ∧
                  operate m.config p operator v w = .error e))) := by
  rw [exprValue, fails_nest, fails_bind_readOnly (exprValue_readOnly left .nothing)]
  simp only [fails_bind_readOnly (exprValue_readOnly right .nothing), fails_get, fails_ofExcept,
    deeper]

/-- Expressions fail if the first one does, or one of the others. -/
theorem fails_exprValues_cons {x : Expr} {es : List Expr} {fallback : Fallback} :
    Fails (exprValues (x :: es) fallback) m e ↔
      Fails (exprValue x fallback) m e ∨ ∃ v, exprValue x fallback m = .ok v m ∧
        Fails (exprValues es fallback) m e := by
  rw [exprValues, fails_bind_readOnly (exprValue_readOnly x fallback)]
  simp

end Expansion

/-! ## Programs -/

namespace Program

open Expansion

variable {program : Program} {config : Config}

/-- The state in which the body of a program begins. -/
def opening (program : Program) (config : Config) : Expansion :=
  { Expansion.new config with
    scopes := [outermostScope program.metadata]
    name := program.metadata.text? "name"
    description := program.metadata.text? "description" }

/-- The expansion of a program is the run of its body as a block. -/
theorem expand_eq : program.expand config =
    match runBlock program.body .start (program.opening config) with
    | .ok _ m => .ok m.variations.toList
    | .error e _ => .error e := by
  have hrun : runProgram program (Expansion.new config) =
      match runBlock program.body .start (program.opening config) with
      | .ok _ m => .ok m.variations.toList m
      | .error e m => .error e m := by
    unfold runProgram
    rw [bind_apply]
    change (runBlock program.body .start >>= _) (program.opening config) = _
    rw [bind_apply]
    cases runBlock program.body .start (program.opening config) <;> rfl
  unfold Program.expand
  rw [hrun]
  cases runBlock program.body .start (program.opening config) <;> rfl

/-- The expansion of a program has the fault with which its body fails. -/
theorem expand_eq_error {e : ExpansionFault} :
    program.expand config = .error e ↔
      Fails (runBlock program.body .start) (program.opening config) e := by
  rw [expand_eq]
  unfold Fails
  cases runBlock program.body .start (program.opening config) <;> simp

end Program

end HandTemplate
