import HandTemplate.Proofs.Reach.Moment

/-!
# Invariants of the values of an expansion

A property of values that the literals of a program and its outermost scope have, and that passes
from values to what the language makes of them, is a property of all values that are bound, visited
or computed at any moment of an expansion. Main statement: `Reaches.sound`.
-/

namespace HandTemplate

/-- A property of values passes to what is made of values that have it. -/
structure Passed (config : Config) (P : Value → Prop) : Prop where
  /-- A name that stands for itself has it. -/
  symbol : ∀ name, P (.symbol name)
  /-- What a builtin gives has it. -/
  apply : ∀ {b : Builtin} {p : Position} {vs : List Value} {v : Value}, (∀ a ∈ vs, P a) →
    b.apply config p vs = .ok v → P v
  /-- An item of a list has it. -/
  item : ∀ {p : Position} {target place v : Value}, P target → P place →
    Expansion.itemAt p target place = .ok v → P v
  /-- The value of an operation has it. -/
  operate : ∀ {operator : Operator} {p : Position} {left right v : Value}, P left → P right →
    Expansion.operate config p operator left right = .ok v → P v
  /-- What a loop visits has it. -/
  elements : ∀ {v : Value} {items : List Value}, P v → v.elements? = some items → ∀ a ∈ items, P a

/-- The literals of an expression have a property, and so do lists of as many values as a list in it
has elements. -/
inductive Expr.Literals (config : Config) (P : Value → Prop) : Expr → Prop where
  | number {value : Int64} {p : Position} (hvalue : P (.integer value)) :
      Literals config P (.number value p)
  | text {value : String} {p : Position} (hvalue : P (.text value)) :
      Literals config P (.text value p)
  | tile {code : String} {p : Position} : Literals config P (.tile code p)
  | identifier {name : String} {p : Position} : Literals config P (.identifier name p)
  | range {first last : Int64} {p : Position}
      (hvalue : ∀ v, Builtin.interval first last config p = .ok v → P v) :
      Literals config P (.range first last p)
  | tuple {elements : List Expr} {p : Position}
      (hvalue : ∀ vs : List Value, vs.length = elements.length → (∀ v ∈ vs, P v) → P (.list vs))
      (helements : ∀ e ∈ elements, Literals config P e) : Literals config P (.tuple elements p)
  | call {name : String} {arguments : List Expr} {p : Position}
      (harguments : ∀ e ∈ arguments, Literals config P e) :
      Literals config P (.call name arguments p)
  | index {target place : Expr} {p : Position} (htarget : Literals config P target)
      (hplace : Literals config P place) : Literals config P (.index target place p)
  | binary {operator : Operator} {left right : Expr} {p : Position}
      (hleft : Literals config P left) (hright : Literals config P right) :
      Literals config P (.binary operator left right p)

/-- The literals of a statement have a property. -/
inductive Statement.Literals (config : Config) (P : Value → Prop) : Statement → Prop where
  | assign {target : Binding} {value : Expr} {p : Position} (hvalue : value.Literals config P) :
      Literals config P (.assign target value p)
  | foreach {binding : Binding} {source : Expr} {body : List Statement} {p : Position}
      (hsource : source.Literals config P) (hbody : ∀ s ∈ body, Literals config P s) :
      Literals config P (.foreach binding source body p)
  | call {name : String} {arguments : List Expr} {p : Position}
      (harguments : ∀ e ∈ arguments, e.Literals config P) :
      Literals config P (.call name arguments p)

namespace Expansion

variable {α β : Type} {config : Config} {P : Value → Prop} {V : α → Prop} {m m' : Expansion}

/-- All values that are bound in a state under a configuration have a property. -/
structure Has (config : Config) (P : Value → Prop) (m : Expansion) : Prop where
  /-- The limits are those of the configuration. -/
  config_eq : m.config = config
  /-- The values in every scope have the property. -/
  scopes : ∀ scope ∈ m.scopes, ∀ name v, scope.get? name = some v → P v

/-- The value of a name has the property. -/
theorem Has.valueOf? (h : m.Has config P) {name : String} {v : Value}
    (hv : m.valueOf? name = some v) : P v := by
  obtain ⟨scope, hscope, hget⟩ := List.exists_of_findSome?_eq_some hv
  exact h.scopes scope hscope name v hget

/-- One level deeper, the same names are bound. -/
theorem Has.deeper (h : m.Has config P) : m.deeper.Has config P := ⟨h.config_eq, h.scopes⟩

/-- A new scope binds nothing yet. -/
theorem Has.openScope (h : m.Has config P) : m.openScope.Has config P := by
  refine ⟨h.config_eq, fun scope hscope name v hv => ?_⟩
  rcases List.mem_cons.mp hscope with rfl | hscope
  · rw [Record.get?_empty] at hv
    cases hv
  · exact h.scopes scope hscope name v hv

/-- Leaving a scope binds nothing new. -/
theorem Has.closeScope (h : m.Has config P) : m.closeScope.Has config P :=
  ⟨h.config_eq, fun scope hscope => h.scopes scope (List.mem_of_mem_tail hscope)⟩

/-- A value with the property may be bound. -/
theorem Has.define (h : m.Has config P) (name : String) {value : Value} (hvalue : P value) :
    (m.define name value).Has config P := by
  refine ⟨h.config_eq, fun scope hscope other v hv => ?_⟩
  unfold Expansion.define at hscope
  -- The value is bound in the first scope or in a new one; the other scopes are the same.
  have hinsert : ∀ old : Scope, (∀ other v, old.get? other = some v → P v) →
      ∀ other v, (old.insert name value).get? other = some v → P v := by
    intro old hold other v hv
    rw [Record.get?_insert] at hv
    split at hv
    · cases hv
      exact hvalue
    · exact hold other v hv
  cases hscopes : m.scopes with
  | nil =>
    rw [hscopes] at hscope
    rw [List.mem_singleton.mp hscope] at hv
    exact hinsert .empty (fun _ _ h => nomatch h) other v hv
  | cons innermost outer =>
    rw [hscopes] at hscope
    rcases List.mem_cons.mp hscope with rfl | hscope
    · exact hinsert innermost (h.scopes innermost (by simp [hscopes])) other v hv
    · exact h.scopes scope (by simp [hscopes, hscope]) other v hv

/-- From states with the property a step comes to states with the property, and gives what has the
property `V`. -/
def Passes (config : Config) (P : Value → Prop) (V : α → Prop) (step : Step α) : Prop :=
  ∀ m a m', m.Has config P → step m = .ok a m' → m'.Has config P ∧ V a

namespace Passes

/-- A step that only gives a value binds nothing. -/
theorem pure {a : α} (ha : V a) : Passes config P V (pure a : Step α) := by
  intro m a m' hm h
  cases h
  exact ⟨hm, ha⟩

/-- A step that fails comes to no state. -/
theorem throw (e : ExpansionFault) : Passes config P V (throw e : Step α) := by
  intro m a m' hm h
  cases h

/-- What needs no state binds nothing. -/
theorem ofExcept {r : Except ExpansionFault α} (hr : ∀ a, r = .ok a → V a) :
    Passes config P V (ofExcept r) := by
  intro m a m' hm h
  obtain ⟨ha, rfl⟩ := ofExcept_eq_ok.mp h
  exact ⟨hm, hr a ha⟩

/-- Two steps in a row keep the property if each of them does. -/
theorem bind {W : β → Prop} {step : Step α} {next : α → Step β} (h : Passes config P V step)
    (hnext : ∀ a, V a → Passes config P W (next a)) : Passes config P W (step >>= next) := by
  intro m b m'' hm hrun
  obtain ⟨a, m', hstep, hrest⟩ := bind_apply_eq_ok.mp hrun
  obtain ⟨hm', ha⟩ := h m a m' hm hstep
  exact hnext a ha m' b m'' hm' hrest

/-- A step that reads a state with the property may use that it has it. -/
theorem get {next : Expansion → Step α}
    (hnext : ∀ m : Expansion, m.Has config P → Passes config P V (next m)) :
    Passes config P V (get >>= next) :=
  fun m a m' hm hrun => hnext m hm m a m' hm hrun

/-- A value is computed from one that has its property. -/
theorem map {W : β → Prop} {step : Step α} (h : Passes config P V step) {f : α → β}
    (hf : ∀ a, V a → W (f a)) : Passes config P W (f <$> step) := by
  rw [map_eq_pure_bind]
  exact h.bind fun a ha => .pure (hf a ha)

/-- A value may have more properties than it needs. -/
theorem mono {V' : α → Prop} {step : Step α} (h : Passes config P V step)
    (hV : ∀ a, V a → V' a) : Passes config P V' step :=
  fun m a m' hm hrun => ⟨(h m a m' hm hrun).1, hV a (h m a m' hm hrun).2⟩

/-- A change that binds nothing. -/
theorem modify {f : Expansion → Expansion}
    (hf : ∀ m, (f m).config = m.config ∧ (f m).scopes = m.scopes) :
    Passes config P (fun _ => True) (modify f) := by
  intro m a m' hm hrun
  cases hrun
  exact ⟨⟨(hf m).1.trans hm.config_eq, (hf m).2 ▸ hm.scopes⟩, trivial⟩

/-- A step one level deeper keeps the property. -/
theorem nest {step : Step α} (p : Position) (h : Passes config P V step) :
    Passes config P V (nest p step) := by
  intro m a m' hm hrun
  unfold Expansion.nest at hrun
  split at hrun
  · cases hrun
  · split at hrun
    next heq =>
      cases hrun
      obtain ⟨hm', ha⟩ := h _ _ _ hm.deeper heq
      exact ⟨⟨hm'.config_eq, hm'.scopes⟩, ha⟩
    next => cases hrun

/-- A step in a scope of its own keeps the property. -/
theorem inScope {step : Step α} (h : Passes config P V step) :
    Passes config P V (inScope step) := by
  intro m a m' hm hrun
  obtain ⟨m'', hstep, rfl⟩ := Context.inScope_eq_ok.mp hrun
  obtain ⟨hm'', ha⟩ := h _ _ _ hm.openScope hstep
  exact ⟨hm''.closeScope, ha⟩

end Passes

/-! ## Expressions -/

/-- The value of a name has the property, as does a name that stands for itself. -/
theorem nameValue_passes (hP : Passed config P) (name : String) (p : Position)
    (fallback : Fallback) : Passes config P P (nameValue name p fallback) := by
  refine .get fun m hm => ?_
  split
  next v hv => exact .pure (hm.valueOf? hv)
  · split
    · exact .pure (hP.symbol name)
    · exact .throw _

/-- The value of a call has the property if its arguments do. -/
theorem callWith_passes (hP : Passed config P) (name : String) (p : Position)
    {arguments : Fallback → Step (List Value)}
    (harguments : ∀ fallback, Passes config P (fun vs => ∀ v ∈ vs, P v) (arguments fallback)) :
    Passes config P P (callWith name p arguments) := by
  have hcallee : Passes config P (fun _ => True) (callee name p) := by
    refine .get fun m hm => ?_
    split
    · split
      · exact .pure trivial
      · exact .throw _
    · exact .throw _
  refine hcallee.bind fun b _ => .nest p ((harguments b.fallback).bind fun vs hvs => ?_)
  split
  · refine .get fun m hm => .ofExcept fun v hv => ?_
    rw [hm.config_eq] at hv
    exact hP.apply hvs hv
  · exact .throw _

mutual

/-- An expression whose literals have the property has a value with the property. -/
theorem exprValue_passes (hP : Passed config P) : (e : Expr) → e.Literals config P →
    (fallback : Fallback) → Passes config P P (exprValue e fallback)
  | .number _ _, .number hvalue, _ => .pure hvalue
  | .text _ _, .text hvalue, _ => .pure hvalue
  | .tile code _, .tile, _ => .pure (hP.symbol code)
  | .identifier name p, .identifier, fallback => nameValue_passes hP name p fallback
  | .range _ _ _, .range hvalue, _ =>
    .get fun _ hm => .ofExcept fun v hv => hvalue v (hm.config_eq ▸ hv)
  | .tuple elements p, .tuple hvalue helements, _ =>
    .nest p ((exprValues_passes hP elements helements .symbol).bind fun vs hvs =>
      .pure (hvalue vs hvs.2 hvs.1))
  | .call name arguments p, .call harguments, _ =>
    callWith_passes hP name p fun fallback =>
      (exprValues_passes hP arguments harguments fallback).mono fun _ => And.left
  | .index target place p, .index htarget hplace, _ =>
    .nest p ((exprValue_passes hP target htarget .nothing).bind fun _ hv =>
      (exprValue_passes hP place hplace .nothing).bind fun _ hi => .ofExcept fun _ h =>
        hP.item hv hi h)
  | .binary _ left right p, .binary hleft hright, _ =>
    .nest p ((exprValue_passes hP left hleft .nothing).bind fun _ hv =>
      (exprValue_passes hP right hright .nothing).bind fun _ hw =>
        .get fun _ hm => .ofExcept fun _ h => hP.operate hv hw (hm.config_eq ▸ h))

/-- So have the values of some expressions. -/
theorem exprValues_passes (hP : Passed config P) : (es : List Expr) →
    (∀ e ∈ es, e.Literals config P) → (fallback : Fallback) →
    Passes config P (fun vs => (∀ v ∈ vs, P v) ∧ vs.length = es.length) (exprValues es fallback)
  | [], _, _ => .pure ⟨fun _ h => (nomatch h), rfl⟩
  | e :: es, hes, fallback =>
    (exprValue_passes hP e (hes e (List.mem_cons_self ..)) fallback).bind fun _ hv =>
      (exprValues_passes hP es (fun e he => hes e (List.mem_cons_of_mem _ he)) fallback).bind
        fun _ hvs => .pure ⟨List.forall_mem_cons.mpr ⟨hv, hvs.1⟩, congrArg Nat.succ hvs.2⟩

end

/-! ## Statements -/

/-- What has the property may be bound, and the items of a list have it if the list does. -/
theorem assign_passes (hP : Passed config P) (binding : Binding) {value : Value} (hvalue : P value)
    (p : Position) : Passes config P (fun _ => True) (assign binding value p) := by
  -- Names are bound one after the other, each to a value with the property.
  have hfold : ∀ (entries : List (String × Value)) (m : Expansion), (∀ x ∈ entries, P x.2) →
      m.Has config P →
        (entries.foldl (fun m entry => m.define entry.1 entry.2) m).Has config P := by
    intro entries
    induction entries with
    | nil => exact fun m _ hm => hm
    | cons entry entries ih =>
      intro m hentries hm
      have hfirst := hm.define entry.1 (hentries entry (List.mem_cons_self ..))
      exact ih _ (fun x hx => hentries x (List.mem_cons_of_mem _ hx)) hfirst
  intro m a m' hm hrun
  cases binding with
  | name name =>
    cases hrun
    exact ⟨hm.define name hvalue, trivial⟩
  | tuple names =>
    cases value with
    | list items =>
      by_cases hlength : items.length = names.length
      · simp only [assign, if_pos hlength] at hrun
        cases hrun
        have hitems := hP.elements hvalue rfl
        exact ⟨hfold _ m (fun x hx => hitems x.2 (List.of_mem_zip hx).2) hm, trivial⟩
      · simp only [assign, if_neg hlength] at hrun
        cases hrun
    | _ => cases hrun

/-- Adding tiles binds nothing. -/
theorem addTiles_passes (tiles : List String) (first : Nat) (looped : Bool) :
    Passes config P (fun _ => True) (addTiles tiles first looped) := by
  unfold addTiles
  split
  · exact Passes.bind (.modify fun _ => ⟨rfl, rfl⟩) fun _ _ => .modify fun _ => ⟨rfl, rfl⟩
  · exact .modify fun _ => ⟨rfl, rfl⟩

/-- Finishing a variation binds nothing. -/
theorem finish_passes (p : Position) : Passes config P (fun _ => True) (finish p) :=
  .get fun _ _ => (Passes.ofExcept (V := fun _ => True) fun _ _ => trivial).bind fun _ _ =>
    .modify fun _ => ⟨rfl, rfl⟩

/-- A block binds what its statements do. -/
theorem block_passes {statements : List Statement} (p : Position) {run : Nat → Step Unit}
    (hrun : ∀ first, Passes config P (fun _ => True) (run first)) :
    Passes config P (fun _ => True) (block statements p run) := by
  refine .get fun m _ => (hrun _).bind fun _ _ => ?_
  have hrestore : Passes config P (fun _ => True)
      (modify fun m' => { m' with buffer := m.buffer }) := .modify fun _ => ⟨rfl, rfl⟩
  split
  · refine .get fun m' _ => ?_
    split
    · exact hrestore
    · exact (finish_passes _).bind fun _ _ => hrestore
  · exact hrestore

/-- A walk over values with the property binds what its steps do. -/
theorem forValues_passes {step : Value → Step Unit}
    (hstep : ∀ v, P v → Passes config P (fun _ => True) (step v)) {vs : List Value}
    (hvs : ∀ v ∈ vs, P v) : Passes config P (fun _ => True) (forValues step vs) := by
  induction vs with
  | nil => exact .pure trivial
  | cons v vs ih =>
    exact (hstep v (hvs v (List.mem_cons_self ..))).bind fun _ _ =>
      ih fun w hw => hvs w (List.mem_cons_of_mem _ hw)

/-- A turn of a loop binds an element and what the body does. -/
theorem turn_passes (hP : Passed config P) (binding : Binding) {body : List Statement}
    (p : Position) (hbody : ∀ first, Passes config P (fun _ => True) (runAll body first false))
    {item : Value} (hitem : P item) :
    Passes config P (fun _ => True) (turn binding body p item) :=
  .inScope ((assign_passes hP binding hitem p).bind fun _ _ => block_passes p hbody)

/-- A loop over elements with the property binds them and what its body does. -/
theorem foreach_passes (hP : Passed config P) (binding : Binding) {source : Expr}
    (hsource : source.Literals config P) {body : List Statement} (p : Position)
    (hbody : ∀ first, Passes config P (fun _ => True) (runAll body first false)) :
    Passes config P (fun _ => True) (nest p (forEach source (turn binding body p))) := by
  rw [forEach_eq]
  refine .nest p ((exprValue_passes hP source hsource .nothing).bind fun v hv => ?_)
  split
  next items hitems =>
    exact forValues_passes (fun item => turn_passes hP binding p hbody) (hP.elements hv hitems)
  · exact .throw _

mutual

/-- A statement whose literals have the property binds what has it. -/
theorem run_passes (hP : Passed config P) : (s : Statement) → s.Literals config P →
    (first : Nat) → (looped : Bool) → Passes config P (fun _ => True) (run s first looped)
  | .assign target value p, .assign hvalue, _, _ =>
    (exprValue_passes hP value hvalue .nothing).bind fun _ hv => assign_passes hP target hv p
  | .foreach binding _ body p, .foreach hsource hbody, _, _ =>
    foreach_passes hP binding hsource p fun first => runAll_passes hP body hbody first false
  | .call name arguments p, .call harguments, first, looped => by
    refine (callWith_passes hP name p fun fallback =>
      (exprValues_passes hP arguments harguments fallback).mono fun _ => And.left).bind
        fun v _ => ?_
    split
    · exact addTiles_passes _ first looped
    · exact .pure trivial

/-- So do the statements of a block. -/
theorem runAll_passes (hP : Passed config P) : (statements : List Statement) →
    (∀ s ∈ statements, s.Literals config P) → (first : Nat) → (looped : Bool) →
      Passes config P (fun _ => True) (runAll statements first looped)
  | [], _, _, _ => .pure trivial
  | s :: statements, hstatements, first, looped =>
    (run_passes hP s (hstatements s (List.mem_cons_self ..)) first looped).bind fun _ _ =>
      runAll_passes hP statements (fun s hs => hstatements s (List.mem_cons_of_mem _ hs)) first
        (looped || s.isLoop)

end

/-! ## Moments -/

/-- The literals of what an activity has to do, and the elements it has to do it for, have a
property. -/
def Activity.Literals (config : Config) (P : Value → Prop) : Activity → Prop
  | block statements _ | remaining statements _ _ => ∀ s ∈ statements, s.Literals config P
  | statement s _ _ => s.Literals config P
  | turns _ body _ items => (∀ s ∈ body, s.Literals config P) ∧ ∀ v ∈ items, P v
  | turn _ body _ item => (∀ s ∈ body, s.Literals config P) ∧ P item
  | call _ arguments _ => ∀ e ∈ arguments, e.Literals config P
  | value e _ => e.Literals config P
  | values es _ => ∀ e ∈ es, e.Literals config P

/-- The elements that a loop has still to visit. -/
def Activity.items : Activity → List Value
  | turns _ _ _ items => items
  | turn _ _ _ item => [item]
  | _ => []

namespace Moment

variable {x y : Moment}

/-- All values at a moment have a property: those bound in the state, and those that the activity
has to do with. -/
structure Sound (config : Config) (P : Value → Prop) (x : Moment) : Prop where
  /-- The bound values. -/
  state : x.state.Has config P
  /-- The elements that are visited, and the literals of what is still to do. -/
  activity : x.activity.Literals config P

/-- The property passes to what a moment starts. -/
theorem Starts.sound (hP : Passed config P) (h : Starts x y) (hx : x.Sound config P) :
    y.Sound config P := by
  obtain ⟨hstate, hactivity⟩ := hx
  -- One case for each way to go on: the literals are among those before, and values come from what
  -- has run in between.
  cases h with
  | block => exact ⟨hstate, hactivity⟩
  | statement => exact ⟨hstate, hactivity _ (List.mem_cons_self ..)⟩
  | @remaining s statements first looped m m' hrun =>
    obtain ⟨hs, hrest⟩ := List.forall_mem_cons.mp hactivity
    exact ⟨(run_passes hP s hs first looped m () m' hstate hrun).1, hrest⟩
  | assigned => cases hactivity with | assign hvalue => exact ⟨hstate, hvalue⟩
  | called => cases hactivity with | call harguments => exact ⟨hstate, harguments⟩
  | source => cases hactivity with | foreach hsource hbody => exact ⟨hstate.deeper, hsource⟩
  | @turns _ source _ _ _ _ m v items _ hsource hitems =>
    cases hactivity with
    | foreach hliterals hbody =>
      have hv := (exprValue_passes hP source hliterals .nothing _ v _ hstate.deeper hsource).2
      exact ⟨hstate.deeper, hbody, hP.elements hv hitems⟩
  | turn => exact ⟨hstate, hactivity.1, hactivity.2 _ (List.mem_cons_self ..)⟩
  | @moreTurns binding body p item items m m' hturn =>
    obtain ⟨hbody, hitems⟩ := hactivity
    obtain ⟨hitem, hrest⟩ := List.forall_mem_cons.mp hitems
    have hpasses := turn_passes hP binding p (fun first => runAll_passes hP body hbody first false)
      hitem
    exact ⟨(hpasses m () m' hstate hturn).1, hbody, hrest⟩
  | @body binding body p item m m' hassign =>
    have hpasses := assign_passes hP binding hactivity.2 p
    exact ⟨(hpasses _ () m' hstate.openScope hassign).1, hactivity.1⟩
  | arguments => exact ⟨hstate.deeper, hactivity⟩
  | call => cases hactivity with | call harguments => exact ⟨hstate, harguments⟩
  | elements => cases hactivity with | tuple _ helements => exact ⟨hstate.deeper, helements⟩
  | target => cases hactivity with | index htarget _ => exact ⟨hstate.deeper, htarget⟩
  | place => cases hactivity with | index _ hplace => exact ⟨hstate.deeper, hplace⟩
  | left => cases hactivity with | binary hleft _ => exact ⟨hstate.deeper, hleft⟩
  | right => cases hactivity with | binary _ hright => exact ⟨hstate.deeper, hright⟩
  | value => exact ⟨hstate, hactivity _ (List.mem_cons_self ..)⟩
  | values => exact ⟨hstate, (List.forall_mem_cons.mp hactivity).2⟩

/-- If all values have the property at a moment, then they do at all moments that are reached. -/
theorem Reaches.sound (hP : Passed config P) (h : x.Reaches y) (hx : x.Sound config P) :
    y.Sound config P := by
  induction h with
  | refl => exact hx
  | tail _ hstarts ih => exact hstarts.sound hP ih

/-- The elements that are still to be visited have the property. -/
theorem Sound.items (hx : x.Sound config P) : ∀ v ∈ x.activity.items, P v := by
  obtain ⟨a, m⟩ := x
  have hactivity := hx.activity
  cases a with
  | turns => exact hactivity.2
  | turn =>
    intro v hv
    rw [List.mem_singleton.mp hv]
    exact hactivity.2
  | _ => exact fun v hv => nomatch hv

/-- The values that the activity of a moment gives have the property. -/
theorem Sound.gives (hP : Passed config P) (hx : x.Sound config P) {vs : List Value}
    {m : Expansion} (h : x.activity.step x.state = .ok vs m) : ∀ v ∈ vs, P v := by
  -- A statement gives no value and an expression one.
  have hnone : ∀ u : Unit, True → ∀ v ∈ ([] : List Value), P v := fun _ _ _ h => nomatch h
  have hone : ∀ v, P v → ∀ w ∈ [v], P w := fun v hv w hw => List.mem_singleton.mp hw ▸ hv
  have hpasses : Passes config P (fun vs => ∀ v ∈ vs, P v) x.activity.step := by
    obtain ⟨a, state⟩ := x
    have hactivity := hx.activity
    cases a with
    | block statements p =>
      exact (block_passes p fun first =>
        runAll_passes hP statements hactivity first false).map hnone
    | remaining statements first looped =>
      exact (runAll_passes hP statements hactivity first looped).map hnone
    | statement s first looped => exact (run_passes hP s hactivity first looped).map hnone
    | turns binding body p items =>
      have hturn : ∀ v, P v → _ := fun v hv => turn_passes hP binding p
        (fun first => runAll_passes hP body hactivity.1 first false) hv
      exact (forValues_passes hturn hactivity.2).map hnone
    | turn binding body p item =>
      exact (turn_passes hP binding p (fun first => runAll_passes hP body hactivity.1 first false)
        hactivity.2).map hnone
    | call name arguments p =>
      exact (callWith_passes hP name p fun fallback =>
        (exprValues_passes hP arguments hactivity fallback).mono fun _ => And.left).map hone
    | value e fallback => exact (exprValue_passes hP e hactivity fallback).map hone
    | values es fallback =>
      exact (exprValues_passes hP es hactivity fallback).mono fun _ => And.left
  exact (hpasses _ _ _ hx.state h).2

end Moment

end Expansion

end HandTemplate
