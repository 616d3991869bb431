import HandTemplate.Proofs.Expansion.View

/-!
# What the value of an expression depends on

An expression looks up the names that it mentions, and the limits. Where these are the same, two
evaluations that succeed give the same value, however deep each of them begins and whatever else is
bound there. Main statement: `callTiles_eq_of_agree`.
-/

namespace HandTemplate

open Outcome (bind_eq_ok pure_eq_ok)

mutual

/-- The names that an expression mentions, those of the builtins that it calls among them. -/
def Expr.names : Expr → List String
  | .number _ _ | .text _ _ | .tile _ _ | .range _ _ _ => []
  | .identifier name _ => [name]
  | .tuple elements _ => Expr.namesOf elements
  | .call name arguments _ => name :: Expr.namesOf arguments
  | .index target place _ => target.names ++ place.names
  | .binary _ left right _ => left.names ++ right.names

/-- The names that some expressions mention. -/
def Expr.namesOf : List Expr → List String
  | [] => []
  | e :: es => e.names ++ Expr.namesOf es

end

/-- The names that are bound. -/
def Binding.names : Binding → List String
  | name n => [n]
  | tuple ns => ns

/-- The names that a statement binds in the scope of its block. -/
def Statement.targets : Statement → List String
  | assign target _ _ => target.names
  | _ => []

namespace Expansion

variable {α β : Type} {names : List String}

/-- Two views have the same limits and the same values for some names. -/
structure View.Agree (names : List String) (v v' : View) : Prop where
  /-- The limits are the same. -/
  config : v.config = v'.config
  /-- The names have the same values, or are bound in neither. -/
  lookup : ∀ name ∈ names, Expansion.lookup name v.scopes = Expansion.lookup name v'.scopes

/-- Views that agree for some names agree for fewer names. -/
theorem View.Agree.mono {names' : List String} {v v' : View} (h : View.Agree names v v')
    (hsub : names' ⊆ names) : View.Agree names' v v' :=
  ⟨h.config, fun name hname => h.lookup name (hsub hname)⟩

/-- If one view agrees with another for some names, then the other agrees with it. -/
theorem View.Agree.symm {v v' : View} (h : View.Agree names v v') : View.Agree names v' v :=
  ⟨h.config.symm, fun name hname => (h.lookup name hname).symm⟩

/-- Views that agree with the same view for some names agree with each other for these. -/
theorem View.Agree.trans {v v' v'' : View} (h : View.Agree names v v')
    (h' : View.Agree names v' v'') : View.Agree names v v'' :=
  ⟨h.config.trans h'.config, fun name hname => (h.lookup name hname).trans (h'.lookup name hname)⟩

/-- Where some names have the same values, two runs of a step that succeed give the same. -/
def DependsOn (names : List String) (step : Step α) : Prop :=
  ∀ v v' : View, v.Agree names v' → ∀ a a', v.run step = .ok a → v'.run step = .ok a' → a = a'

namespace DependsOn

/-- What is given without reading depends on no name. -/
theorem pure (a : α) : DependsOn names (pure a : Step α) := by
  intro v v' _ a a' h h'
  cases h
  cases h'
  rfl

/-- A fault that is raised without reading depends on no name. -/
theorem throw (e : ExpansionFault) : DependsOn names (throw e : Step α) := by
  intro v v' _ a a' h
  cases h

/-- What needs no state depends on no name. -/
theorem ofExcept (r : Except ExpansionFault α) : DependsOn names (ofExcept r) := by
  cases r with
  | ok a => exact .pure a
  | error e => exact .throw e

/-- Two steps in a row depend on the names of both, where the first one changes nothing. -/
theorem bind {step : Step α} {next : α → Step β} (hread : ReadOnly step)
    (hstep : DependsOn names step) (hnext : ∀ a, DependsOn names (next a)) :
    DependsOn names (step >>= next) := by
  intro v v' hagree b b' h h'
  obtain ⟨a, ha, hb⟩ := (View.run_bind hread).mp h
  obtain ⟨a', ha', hb'⟩ := (View.run_bind hread).mp h'
  obtain rfl := hstep v v' hagree a a' ha ha'
  exact hnext a v v' hagree b b' hb hb'

/-- A step that looks at the limits only. -/
theorem config {next : Config → Step α} (hnext : ∀ config, DependsOn names (next config)) :
    DependsOn names (do next (← get).config) := by
  intro v v' hagree a a' h h'
  change v.run (next v.config) = _ at h
  change v'.run (next v'.config) = _ at h'
  rw [← hagree.config] at h'
  exact hnext v.config v v' hagree a a' h h'

/-- A step one level deeper depends on the same names. -/
theorem nest {p : Position} {step : Step α} (hstep : DependsOn names step) :
    DependsOn names (nest p step) := by
  intro v v' hagree a a' h h'
  have ha := (View.run_nest.mp h).2
  have ha' := (View.run_nest.mp h').2
  exact hstep { v with depth := v.depth + 1 } { v' with depth := v'.depth + 1 }
    ⟨hagree.config, hagree.lookup⟩ a a' ha ha'

/-- A step that depends on some names depends on more names. -/
theorem mono {names' : List String} {step : Step α} (h : DependsOn names' step)
    (hsub : names' ⊆ names) : DependsOn names step :=
  fun v v' hagree => h v v' (hagree.mono hsub)

end DependsOn

/-- The value of a name depends on this name alone. -/
theorem nameValue_dependsOn (name : String) (p : Position) (fallback : Fallback) :
    DependsOn [name] (nameValue name p fallback) := by
  intro v v' hagree a a' h h'
  rw [View.run_nameValue, hagree.lookup name (List.mem_singleton_self name)] at h
  rw [View.run_nameValue] at h'
  cases hlookup : lookup name v'.scopes with
  | some value =>
    simp only [hlookup, Option.some.injEq, reduceCtorEq, false_and, or_false] at h h'
    rw [← h, h']
  | none =>
    simp only [hlookup, reduceCtorEq, true_and, false_or] at h h'
    rw [← h.2, h'.2]

/-- The builtin that a name calls depends on this name alone. -/
theorem callee_dependsOn (name : String) (p : Position) : DependsOn [name] (callee name p) := by
  intro v v' hagree b b' h h'
  obtain ⟨bound, hbound, hb⟩ := View.run_callee.mp h
  obtain ⟨bound', hbound', hb'⟩ := View.run_callee.mp h'
  have hlookup := hagree.lookup name (List.mem_singleton_self name)
  rw [hbound, hbound'] at hlookup
  cases hlookup
  rw [hb] at hb'
  cases hb'
  rfl

/-- A call depends on its name and on the names of its arguments. -/
theorem callWith_dependsOn (name : String) (p : Position)
    {arguments : Fallback → Step (List Value)} (hread : ∀ fallback, ReadOnly (arguments fallback))
    (harguments : ∀ fallback, DependsOn names (arguments fallback)) :
    DependsOn (name :: names) (callWith name p arguments) := by
  refine .bind (callee_readOnly name p) ((callee_dependsOn name p).mono (by simp)) fun b => ?_
  refine .nest (.bind (hread b.fallback) ((harguments b.fallback).mono (by simp)) fun values => ?_)
  split
  · exact .config fun config => .ofExcept (b.apply config p values)
  · exact .throw _

mutual

/-- The value of an expression depends on the names that it mentions. -/
theorem exprValue_dependsOn : (e : Expr) → (fallback : Fallback) →
    DependsOn e.names (exprValue e fallback)
  -- An expression is evaluated in steps each of which depends on the names of one part.
  | .number _ _, _ => .pure _
  | .text _ _, _ => .pure _
  | .tile _ _, _ => .pure _
  | .identifier name p, fallback => nameValue_dependsOn name p fallback
  | .range first last p, _ =>
    .config fun config => .ofExcept (Builtin.interval first last config p)
  | .tuple elements _, _ =>
    .nest (.bind (exprValues_readOnly elements .symbol) (exprValues_dependsOn elements .symbol)
      fun _ => .pure _)
  | .call name arguments p, _ =>
    callWith_dependsOn name p (exprValues_readOnly arguments) (exprValues_dependsOn arguments)
  | .index target place _, _ =>
    .nest (.bind (exprValue_readOnly target .nothing)
      ((exprValue_dependsOn target .nothing).mono (List.subset_append_left ..)) fun _ =>
        .bind (exprValue_readOnly place .nothing)
          ((exprValue_dependsOn place .nothing).mono (List.subset_append_right ..)) fun _ =>
            .ofExcept _)
  | .binary operator left right p, _ =>
    .nest (.bind (exprValue_readOnly left .nothing)
      ((exprValue_dependsOn left .nothing).mono (List.subset_append_left ..)) fun a =>
        .bind (exprValue_readOnly right .nothing)
          ((exprValue_dependsOn right .nothing).mono (List.subset_append_right ..)) fun b =>
            .config fun config => .ofExcept (operate config p operator a b))

/-- The values of some expressions depend on the names that they mention. -/
theorem exprValues_dependsOn : (es : List Expr) → (fallback : Fallback) →
    DependsOn (Expr.namesOf es) (exprValues es fallback)
  | [], _ => .pure _
  | e :: es, fallback =>
    .bind (exprValue_readOnly e fallback)
      ((exprValue_dependsOn e fallback).mono (List.subset_append_left ..)) fun _ =>
        .bind (exprValues_readOnly es fallback)
          ((exprValues_dependsOn es fallback).mono (List.subset_append_right ..)) fun _ => .pure _

end

end Expansion

namespace Context

/-- A call adds the same tiles in two contexts in which its name and the names that its arguments
mention have the same values. -/
theorem callTiles_eq_of_agree {c c' : Context} {name : String} {arguments : List Expr}
    {p : Position} {tiles tiles' : List String}
    (hagree : c.view.Agree (name :: Expr.namesOf arguments) c'.view)
    (h : c.callTiles name arguments p = .ok tiles)
    (h' : c'.callTiles name arguments p = .ok tiles') : tiles = tiles' := by
  obtain ⟨v, hv, htiles⟩ := bind_eq_ok.mp h
  obtain ⟨v', hv', htiles'⟩ := bind_eq_ok.mp h'
  have hdepends := Expansion.callWith_dependsOn name p (Expansion.exprValues_readOnly arguments)
    (Expansion.exprValues_dependsOn arguments)
  obtain rfl := hdepends c.view c'.view hagree v v' hv hv'
  rw [htiles] at htiles'
  cases htiles'
  rfl

/-! ## What bindings leave alone -/

variable {c : Context} {names : List String}

/-- Binding leaves all other names in a scope as they are. -/
theorem bind_get? {binding : Binding} {value : Value} {p : Position} {frame frame' : Scope}
    (h : bind binding value p frame = .ok frame') {name : String} (hname : name ∉ binding.names) :
    frame'.get? name = frame.get? name := by
  -- Of several names none is the one that is looked at.
  have hfold : ∀ (entries : List (String × Value)) (frame : Scope),
      (∀ entry ∈ entries, entry.1 ≠ name) →
        (entries.foldl (fun frame entry => frame.insert entry.1 entry.2) frame).get? name =
          frame.get? name := by
    intro entries
    induction entries with
    | nil => exact fun _ _ => rfl
    | cons entry entries ih =>
      intro frame hentries
      obtain ⟨hentry, hothers⟩ := List.forall_mem_cons.mp hentries
      rw [List.foldl_cons, ih _ hothers, Record.get?_insert, if_neg hentry]
  cases binding with
  | name n =>
    cases h
    rw [Record.get?_insert, if_neg fun hn => hname (List.mem_singleton.mpr hn.symm)]
  | tuple ns =>
    cases value with
    | list items =>
      simp only [bind] at h
      split at h
      · cases h
        refine hfold _ frame fun entry hentry hn => hname ?_
        rw [← hn]
        exact (List.of_mem_zip hentry).1
      · cases h
    | _ => cases h

/-- Statements leave all names that they do not assign as they are. -/
theorem effects_get? {statements : List Statement} {before : List String} {e : Effect}
    (h : effects statements c before = .ok e) {name : String}
    (hname : name ∉ statements.flatMap Statement.targets) :
    e.frame.get? name = c.frame.get? name := by
  -- By induction on the statements, each of which leaves the name as it was before it.
  induction statements generalizing c before e with
  | nil =>
    cases h
    rfl
  | cons s statements ih =>
    simp only [effects, bind_eq_ok, pure_eq_ok] at h
    obtain ⟨first, hfirst, others, hothers, rfl⟩ := h
    rw [List.flatMap_cons, List.mem_append, not_or] at hname
    have hrest : others.frame.get? name = first.frame.get? name := ih hothers hname.2
    have hstatement : first.frame.get? name = c.frame.get? name := by
      -- An assignment binds its targets; a loop binds in scopes of its own, and a call binds
      -- nothing.
      cases s with
      | assign target value p =>
        simp only [effect, bind_eq_ok, pure_eq_ok] at hfirst
        obtain ⟨v, -, frame, hframe, rfl⟩ := hfirst
        exact bind_get? hframe hname.1
      | foreach binding source body p =>
        simp only [effect, bind_eq_ok, pure_eq_ok] at hfirst
        obtain ⟨_, -, _, -, _, -, rfl⟩ := hfirst
        rfl
      | call called arguments p =>
        simp only [effect, bind_eq_ok, pure_eq_ok] at hfirst
        obtain ⟨_, -, rfl⟩ := hfirst
        rfl
    exact hrest.trans hstatement

/-- After statements, names that they do not assign have the values that they had before. -/
theorem effects_agree {statements : List Statement} {before : List String} {e : Effect}
    (h : effects statements c before = .ok e)
    (hnames : ∀ name ∈ names, name ∉ statements.flatMap Statement.targets) :
    Expansion.View.Agree names { c with frame := e.frame }.view c.view := by
  refine ⟨rfl, fun name hname => ?_⟩
  change Expansion.lookup name (e.frame :: c.outer) = Expansion.lookup name (c.frame :: c.outer)
  unfold Expansion.lookup
  rw [List.findSome?_cons, List.findSome?_cons, effects_get? h (hnames name hname)]

/-- In a pass of a loop, names that the loop does not bind have the values that they have around
it. -/
theorem pass_agree {binding : Binding} {p p' : Position} {item : Value} {inner pass : Context}
    (hinner : c.inLoop p = .ok inner) (hpass : inner.forElement binding p' item = .ok pass)
    (hnames : ∀ name ∈ names, name ∉ binding.names) : pass.view.Agree names c.view := by
  obtain ⟨-, rfl⟩ := inLoop_eq_ok.mp hinner
  obtain ⟨frame, hframe, hpass⟩ := bind_eq_ok.mp hpass
  cases hpass
  refine ⟨rfl, fun name hname => ?_⟩
  have hnone : frame.get? name = none := by
    rw [bind_get? hframe (hnames name hname), Record.get?_empty]
  change Expansion.lookup name (frame :: c.frame :: c.outer) =
    Expansion.lookup name (c.frame :: c.outer)
  unfold Expansion.lookup
  rw [List.findSome?_cons, hnone]

end Context

end HandTemplate
