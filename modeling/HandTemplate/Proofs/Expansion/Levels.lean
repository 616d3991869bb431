import HandTemplate.Proofs.Expansion.Operations
import HandTemplate.Proofs.Grammar.Depth

/-!
# Levels that a run takes

A tuple, a call, an index, an operation and a loop each take a level of depth while they run, and
what stands in them runs one level deeper. So the number of levels that an expression or a statement
takes can be read off its tree: an expression takes its height, a statement its nesting. With so
many levels left it does not fail for its depth, and if it succeeds, then it leaves the depth as it
was before (`exprValue_takes`, `run_takes`). An expression that has a value has had all its levels,
for all of its parts are evaluated (`exprValue_needs`).
-/

namespace HandTemplate

namespace Statement

mutual

/-- How many levels a statement takes while it runs: as many as its expressions, and a loop one more
than its source and its body. -/
def nesting : Statement → Nat
  | assign _ value _ => value.height 1
  | foreach _ source body _ => max (source.height 1) (nestings body) + 1
  | call _ arguments _ => Expr.heights 1 arguments + 1

/-- How many levels the deepest of some statements takes. -/
def nestings : List Statement → Nat
  | [] => 0
  | s :: statements => max (nesting s) (nestings statements)

end

end Statement

/-- How many levels the statements of a program take. -/
def Program.nesting (program : Program) : Nat := Statement.nestings program.body

/-- A fault for want of a level. -/
def ExpansionFault.TooDeep (e : ExpansionFault) : Prop :=
  match e.cause with
  | .tooDeep _ => True
  | _ => False

/-- No operation refuses its operands for want of a level. -/
theorem Refuses.not_tooDeep {config : Config} {p : Position} {vs : List Value} {e : ExpansionFault}
    (h : Refuses config p vs e) : ¬ e.TooDeep := by
  cases h <;> exact id

/-! ## Steps -/

namespace Expansion

variable {α β : Type} {k : Nat} {m : Expansion}

/-- A step takes at most `k` levels. -/
structure Takes (k : Nat) (step : Step α) : Prop where
  /-- If it succeeds, then it leaves the depth and the limits as they were. -/
  keeps : ∀ {m a m'}, step m = .ok a m' → m'.depth = m.depth ∧ m'.config = m.config
  /-- With so many levels left it does not fail for want of one. -/
  enough : ∀ {m e}, m.depth + k ≤ m.config.maxDepth → Fails step m e → ¬ e.TooDeep

/-- A step one level deeper succeeds only if there is such a level, and if the step succeeds there.
-/
theorem eq_ok_of_nest {p : Position} {step : Step α} {a : α} {m' : Expansion}
    (h : nest p step m = .ok a m') :
    m.depth < m.config.maxDepth ∧
      ∃ m'', step m.deeper = .ok a m'' ∧ m' = { m'' with depth := m''.depth - 1 } := by
  unfold nest at h
  split at h
  · cases h
  next hdepth =>
    split at h
    next m'' hstep =>
      cases h
      exact ⟨Nat.lt_of_not_le hdepth, m'', hstep, rfl⟩
    next => cases h

namespace Takes

variable {step : Step α}

/-- A step that only gives a value takes no level. -/
theorem pure (a : α) : Takes k (pure a : Step α) :=
  ⟨fun h => by cases h; exact ⟨rfl, rfl⟩, fun _ h => absurd h (not_fails_pure a)⟩

/-- What needs no state takes no level, if it is not refused for want of one. -/
theorem ofExcept {r : Except ExpansionFault α} (hr : ∀ e, r = .error e → ¬ e.TooDeep) :
    Takes k (ofExcept r) where
  keeps h := by
    obtain ⟨-, rfl⟩ := ofExcept_eq_ok.mp h
    exact ⟨rfl, rfl⟩
  enough _ h := hr _ (fails_ofExcept.mp h)

/-- An operation on values takes no level. -/
theorem refuses {r : Except ExpansionFault α} {config : Config} {p : Position} (vs : List Value)
    (hr : ∀ e, r = .error e → Refuses config p vs e) : Takes k (Expansion.ofExcept r) :=
  .ofExcept fun e h => (hr e h).not_tooDeep

/-- A fault other than a want of levels takes none. -/
theorem throw {e : ExpansionFault} (he : ¬ e.TooDeep) : Takes k (throw e : Step α) :=
  .ofExcept (r := .error e) fun _ h => by cases h; exact he

/-- Of steps in a row, each begins at the same depth. -/
theorem bind (h : Takes k step) {next : α → Step β} (hnext : ∀ a, Takes k (next a)) :
    Takes k (step >>= next) where
  keeps hrun := by
    obtain ⟨a, m', hstep, hrest⟩ := bind_apply_eq_ok.mp hrun
    obtain ⟨hdepth, hconfig⟩ := h.keeps hstep
    obtain ⟨hdepth', hconfig'⟩ := (hnext a).keeps hrest
    exact ⟨hdepth'.trans hdepth, hconfig'.trans hconfig⟩
  enough hlevels hfails := by
    rcases fails_bind.mp hfails with hstep | ⟨a, m', hstep, hrest⟩
    · exact h.enough hlevels hstep
    · obtain ⟨hdepth, hconfig⟩ := h.keeps hstep
      exact (hnext a).enough (by rwa [hdepth, hconfig]) hrest

/-- A step that reads the state takes as many levels as it does with what it read. -/
theorem get {next : Expansion → Step α} (hnext : ∀ m, Takes k (next m)) :
    Takes k (get >>= next) where
  keeps hrun := (hnext _).keeps hrun
  enough hlevels hfails := (hnext _).enough hlevels (fails_get.mp hfails)

/-- A change that has nothing to do with the depth. -/
theorem modify {f : Expansion → Expansion}
    (hf : ∀ m, (f m).depth = m.depth ∧ (f m).config = m.config) : Takes k (modify f) where
  keeps h := by
    cases h
    exact hf _
  enough _ h := absurd h (not_fails_modify f)

/-- What takes few levels does not lack one where there are more. -/
theorem mono {l : Nat} (h : Takes k step) (hle : k ≤ l) : Takes l step :=
  ⟨h.keeps, fun hlevels => h.enough (by omega)⟩

/-- One level deeper, a step takes one level more. -/
theorem nest (p : Position) (h : Takes k step) : Takes (k + 1) (nest p step) where
  keeps hrun := by
    obtain ⟨-, m'', hstep, rfl⟩ := eq_ok_of_nest hrun
    obtain ⟨hdepth, hconfig⟩ := h.keeps hstep
    refine ⟨?_, hconfig⟩
    simp only [deeper] at hdepth ⊢
    omega
  enough hlevels hfails := by
    rcases fails_nest.mp hfails with ⟨hdepth, -⟩ | ⟨-, hstep⟩
    · omega
    · exact h.enough (m := deeper _) (by unfold deeper; dsimp only; omega) hstep

/-- A step in a scope of its own takes as many levels as outside. -/
theorem inScope (h : Takes k step) : Takes k (inScope step) where
  keeps hrun := by
    obtain ⟨m', hstep, rfl⟩ := Context.inScope_eq_ok.mp hrun
    obtain ⟨hdepth, hconfig⟩ := h.keeps hstep
    exact ⟨hdepth, hconfig⟩
  enough hlevels hfails := h.enough (m := openScope _) hlevels (fails_inScope.mp hfails)

end Takes

/-- The value of a name takes no level. -/
theorem nameValue_takes (name : String) (p : Position) (fallback : Fallback) :
    Takes k (nameValue name p fallback) := by
  refine .get fun m => ?_
  split
  · exact .pure _
  · split
    · exact .pure _
    · exact .throw id

/-- Looking a builtin up takes no level. -/
theorem callee_takes (name : String) (p : Position) : Takes k (callee name p) := by
  refine .get fun m => ?_
  split
  · split
    · exact .pure _
    · exact .throw id
  · exact .throw id

/-- An item of a list takes no level. -/
theorem itemAt_takes {p : Position} (target place : Value) :
    Takes k (ofExcept (itemAt p target place)) := by
  refine .ofExcept fun e h => ?_
  have hcause : Refuses {} p [target, place] e ∨ _ := itemAt_refuses h
  rcases hcause with hrefuses | ⟨_, _, -, rfl, -⟩
  · exact hrefuses.not_tooDeep
  · exact id

/-- A call takes one level more than its arguments. -/
theorem callWith_takes (name : String) (p : Position) {arguments : Fallback → Step (List Value)}
    (harguments : ∀ fallback, Takes k (arguments fallback)) :
    Takes (k + 1) (callWith name p arguments) := by
  refine (callee_takes name p).bind fun b => .nest p ((harguments b.fallback).bind fun vs => ?_)
  split
  · exact .get fun m => .refuses vs fun _ => Builtin.apply_refuses
  · exact .throw id

mutual

/-- An expression takes as many levels as it is high. -/
theorem exprValue_takes :
    (e : Expr) → (fallback : Fallback) → Takes (e.height 1) (exprValue e fallback)
  | .number _ _, _ | .text _ _, _ | .tile _ _, _ => .pure _
  | .identifier name p, fallback => nameValue_takes name p fallback
  | .range first last _, _ => .get fun _ => .refuses [] fun _ => Builtin.interval_refuses
  | .tuple elements p, _ =>
    .nest p ((exprValues_takes elements .symbol).bind fun _ => .pure _)
  | .call name arguments p, _ =>
    callWith_takes name p fun fallback => exprValues_takes arguments fallback
  | .index target place p, _ => by
    -- Both parts are evaluated one level below the whole, one after the other at the same depth.
    rw [Expr.height, Nat.add_max_add_right]
    exact .nest p (((exprValue_takes target .nothing).mono (Nat.le_max_left ..)).bind fun v =>
      ((exprValue_takes place .nothing).mono (Nat.le_max_right ..)).bind fun i =>
        itemAt_takes v i)
  | .binary operator left right p, _ => by
    rw [Expr.height, Nat.add_max_add_right]
    exact .nest p (((exprValue_takes left .nothing).mono (Nat.le_max_left ..)).bind fun v =>
      ((exprValue_takes right .nothing).mono (Nat.le_max_right ..)).bind fun w =>
        .get fun _ => .refuses [v, w] fun _ => operate_refuses)

/-- Some expressions take as many levels as the highest of them. -/
theorem exprValues_takes :
    (es : List Expr) → (fallback : Fallback) → Takes (Expr.heights 1 es) (exprValues es fallback)
  | [], _ => .pure _
  | e :: es, fallback =>
    ((exprValue_takes e fallback).mono (Nat.le_max_left ..)).bind fun _ =>
      ((exprValues_takes es fallback).mono (Nat.le_max_right ..)).bind fun _ => .pure _

end

/-! ## Statements -/

/-- An assignment takes no level. -/
theorem assign_takes (binding : Binding) (value : Value) (p : Position) :
    Takes k (assign binding value p) := by
  have hfold : ∀ (entries : List (String × Value)) (m : Expansion),
      (entries.foldl (fun m entry => m.define entry.1 entry.2) m).depth = m.depth ∧
        (entries.foldl (fun m entry => m.define entry.1 entry.2) m).config = m.config := by
    intro entries
    induction entries with
    | nil => exact fun _ => ⟨rfl, rfl⟩
    | cons entry entries ih => exact fun m => ih (m.define entry.1 entry.2)
  unfold assign
  split
  · exact .modify fun _ => ⟨rfl, rfl⟩
  · split
    · exact .modify fun m => hfold _ m
    · exact .throw id
  · exact .throw id

/-- Tiles are added without a level. -/
theorem addTiles_takes (tiles : List String) (first : Nat) (looped : Bool) :
    Takes k (addTiles tiles first looped) := by
  unfold addTiles
  split
  · refine Takes.bind ?_ fun _ => ?_
    · exact .modify fun _ => ⟨rfl, rfl⟩
    · exact .modify fun _ => ⟨rfl, rfl⟩
  · exact .modify fun _ => ⟨rfl, rfl⟩

/-- A block takes the levels of its statements. -/
theorem block_takes (statements : List Statement) (p : Position) {run : Nat → Step Unit}
    (hrun : ∀ first, Takes k (run first)) : Takes k (block statements p run) := by
  refine .get fun m => (hrun _).bind fun _ => ?_
  have hrestore : Takes k (modify fun m' => { m' with buffer := m.buffer }) :=
    .modify fun _ => ⟨rfl, rfl⟩
  split
  · refine .get fun m' => ?_
    split
    · exact hrestore
    · have hfinish : Takes k (finish ((statements.getLast?.map Statement.position).getD p)) :=
        .get fun _ => (Takes.refuses [] fun _ => checkCount_refuses).bind fun _ =>
          .modify fun _ => ⟨rfl, rfl⟩
      exact hfinish.bind fun _ => hrestore
  · exact hrestore

/-- A turn of a loop takes as many levels as its body. -/
theorem turn_takes (binding : Binding) {body : List Statement} (p : Position)
    (hbody : ∀ first, Takes k (runAll body first false)) (item : Value) :
    Takes k (turn binding body p item) :=
  .inScope ((assign_takes binding item p).bind fun _ => block_takes body p hbody)

/-- A loop over values takes as many levels as each of its turns. -/
theorem forValues_takes {step : Value → Step Unit} (hstep : ∀ v, Takes k (step v))
    (values : List Value) : Takes k (forValues step values) := by
  induction values with
  | nil => exact .pure ()
  | cons v vs ih => exact (hstep v).bind fun _ => ih

/-- A loop takes one level more than its source and its body. -/
theorem foreach_takes (binding : Binding) (source : Expr) {body : List Statement} (p : Position)
    (hsource : source.height 1 ≤ k) (hbody : ∀ first, Takes k (runAll body first false)) :
    Takes (k + 1) (nest p (forEach source (turn binding body p))) := by
  rw [forEach_eq]
  refine .nest p (((exprValue_takes source .nothing).mono hsource).bind fun v => ?_)
  split
  · exact forValues_takes (turn_takes binding p hbody) _
  · exact .throw id

mutual

/-- A statement takes the levels of its nesting. -/
theorem run_takes : (s : Statement) → (first : Nat) → (looped : Bool) →
    Takes s.nesting (run s first looped)
  | .assign target value p, _, _ =>
    (exprValue_takes value .nothing).bind fun v => assign_takes target v p
  | .foreach binding source body p, _, _ =>
    foreach_takes binding source p (Nat.le_max_left ..) fun first =>
      (runAll_takes body first false).mono (Nat.le_max_right ..)
  | .call name arguments p, first, looped => by
    refine Takes.bind (callWith_takes name p fun fallback => exprValues_takes arguments fallback)
      fun v => ?_
    split
    · exact addTiles_takes _ first looped
    · exact .pure ()

/-- Statements take the levels of the deepest of them. -/
theorem runAll_takes : (statements : List Statement) → (first : Nat) → (looped : Bool) →
    Takes (Statement.nestings statements) (runAll statements first looped)
  | [], _, _ => .pure ()
  | s :: statements, first, looped =>
    ((run_takes s first looped).mono (Nat.le_max_left ..)).bind fun _ =>
      (runAll_takes statements first (looped || s.isLoop)).mono (Nat.le_max_right ..)

end

/-! ## Values that need levels -/

/-- A step that succeeds only where there are `k` levels for it. -/
def Needs (k : Nat) (step : Step α) : Prop :=
  ∀ m a m', m.depth ≤ m.config.maxDepth → step m = .ok a m' → m.depth + k ≤ m.config.maxDepth

namespace Needs

variable {l : Nat} {step : Step α}

/-- Every step needs no levels at least. -/
theorem zero (step : Step α) : Needs 0 step := fun _ _ _ hdepth _ => hdepth

/-- Steps in a row need the levels of the first. -/
theorem first (h : Needs k step) (next : α → Step β) : Needs k (step >>= next) := by
  intro m b m'' hdepth hrun
  obtain ⟨a, m', hstep, -⟩ := bind_apply_eq_ok.mp hrun
  exact h m a m' hdepth hstep

/-- Steps in a row need the levels of the second, which begins at the same depth. -/
theorem second (hstep : Takes l step) {next : α → Step β} (h : ∀ a, Needs k (next a)) :
    Needs k (step >>= next) := by
  intro m b m'' hdepth hrun
  obtain ⟨a, m', hfirst, hrest⟩ := bind_apply_eq_ok.mp hrun
  obtain ⟨hsame, hlimits⟩ := hstep.keeps hfirst
  have hlevels := h a m' b m'' (by rwa [hsame, hlimits]) hrest
  rwa [hsame, hlimits] at hlevels

/-- A step that needs two numbers of levels needs the greater one. -/
theorem max (h : Needs k step) (h' : Needs l step) : Needs (max k l) step := by
  intro m a m' hdepth hrun
  have hfirst := h m a m' hdepth hrun
  have hsecond := h' m a m' hdepth hrun
  omega

/-- One level deeper, a step needs one level more. -/
theorem nest (p : Position) (h : Needs k step) : Needs (k + 1) (nest p step) := by
  intro m a m' _ hrun
  obtain ⟨hlevel, m'', hstep, -⟩ := eq_ok_of_nest hrun
  have hlevels := h m.deeper a m'' hlevel hstep
  simp only [deeper] at hlevels
  omega

end Needs

mutual

/-- An expression needs as many levels as it is high, for all of its parts are evaluated. -/
theorem exprValue_needs :
    (e : Expr) → (fallback : Fallback) → Needs (e.height 1) (exprValue e fallback)
  | .number _ _, _ | .text _ _, _ | .tile _ _, _ | .identifier _ _, _ | .range _ _ _, _ => .zero _
  | .tuple elements p, _ => .nest p ((exprValues_needs elements .symbol).first _)
  | .call name arguments p, _ => callValue_needs name arguments p
  | .index target place p, _ => by
    rw [Expr.height, Nat.add_max_add_right]
    exact .nest p (((exprValue_needs target .nothing).first _).max
      (.second (exprValue_takes target .nothing) fun _ => (exprValue_needs place .nothing).first _))
  | .binary _ left right p, _ => by
    rw [Expr.height, Nat.add_max_add_right]
    exact .nest p (((exprValue_needs left .nothing).first _).max
      (.second (exprValue_takes left .nothing) fun _ => (exprValue_needs right .nothing).first _))

/-- Some expressions need as many levels as the highest of them. -/
theorem exprValues_needs :
    (es : List Expr) → (fallback : Fallback) → Needs (Expr.heights 1 es) (exprValues es fallback)
  | [], _ => .zero _
  | e :: es, fallback =>
    ((exprValue_needs e fallback).first _).max
      (.second (exprValue_takes e fallback) fun _ => (exprValues_needs es fallback).first _)

/-- A call needs one level more than its arguments. -/
theorem callValue_needs (name : String) (arguments : List Expr) (p : Position) :
    Needs (Expr.heights 1 arguments + 1) (callValue name arguments p) :=
  .second (k := Expr.heights 1 arguments + 1) (callee_takes (k := 0) name p) fun b =>
    .nest p ((exprValues_needs arguments b.fallback).first _)

end

end Expansion

end HandTemplate
