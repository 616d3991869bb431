import HandTemplate.Proofs.Expansion.Limit
import HandTemplate.Proofs.Expansion.Outermost
import HandTemplate.Proofs.Nesting.Choice
import HandTemplate.Proofs.Nesting.Size

/-!
# Loops nested directly inside one another

A block whose only statement is a loop, whose body is a single loop in turn, and so on down to a
body with one hand in every pass, has one hand for every way to choose one element of each source,
in the order of these choices (`hands_loops`). Literals as sources have the elements that they list
(`visits_of_lists`).
-/

namespace HandTemplate

open Outcome (bind_eq_ok map_eq_ok)

/-- A loop whose body is not given. -/
structure Loop where
  /-- The variable that takes the elements. -/
  name : String
  /-- The source of the elements. -/
  source : Expr
  /-- The position of the loop. -/
  position : Position

/-- A loop as the only statement of its block. -/
def Loop.level (l : Loop) : Level := ⟨[], .name l.name, l.source, l.position, []⟩

namespace Context

variable {c : Context}

/-- The context of a loop's body in the pass for an element. -/
def enter (c : Context) (l : Loop) (v : Value) : Context :=
  { c with
    depth := c.depth + 1
    frame := Record.empty.insert l.name v
    outer := c.frame :: c.outer }

/-- The context of the innermost body in the passes for chosen elements. -/
def within (c : Context) : List Loop → List Value → Context
  | l :: loops, v :: vs => (c.enter l v).within loops vs
  | _, _ => c

/-- The elements that nested loops visit, whichever elements the outer loops are at. -/
inductive Visits : Context → List Loop → List (List Value) → Prop where
  | nil {c : Context} : Visits c [] []
  | cons {c : Context} {l : Loop} {loops : List Loop} {vs : List Value} {items : List (List Value)}
      (hdepth : c.depth < c.config.maxDepth)
      (hsource : { c with depth := c.depth + 1 }.elements l.source = .ok vs)
      (hinside : ∀ v ∈ vs, Visits (c.enter l v) loops items) : Visits c (l :: loops) (vs :: items)

/-! ## Hands of nested loops -/

/-- What there is for each element there is for all of them. -/
theorem exists_forall₂ {α β : Type} {R : α → β → Prop} {xs : List α} (h : ∀ x ∈ xs, ∃ y, R x y) :
    ∃ ys, List.Forall₂ R xs ys := by
  induction xs with
  | nil => exact ⟨[], .nil⟩
  | cons x xs ih =>
    obtain ⟨hfirst, hothers⟩ := List.forall_mem_cons.mp h
    obtain ⟨y, hy⟩ := hfirst
    obtain ⟨ys, hys⟩ := ih hothers
    exact ⟨y :: ys, .cons hy hys⟩

/-- Group calls contribute their tiles. -/
theorem effects_calls {calls : List GroupCall} {tiles : List String} (before : List String)
    (h : c.groupTiles calls = .ok tiles) :
    effects (calls.map GroupCall.statement) c before = .ok ⟨c.frame, tiles, []⟩ := by
  obtain ⟨parts, hparts, rfl⟩ := map_eq_ok.mp h
  rw [Outcome.mapM_eq_ok] at hparts
  clear h
  induction hparts generalizing before with
  | nil => rfl
  | @cons g part calls parts hfirst _ ih =>
    refine effects_call_eq_ok.mpr ⟨part, hfirst, _, ih (before ++ part), ?_⟩
    simp [Effect.andThen]

/-- Calls of tile groups make one hand of all their tiles. -/
theorem hands_calls {calls : List GroupCall} {tiles : List String}
    (h : c.groupTiles calls = .ok tiles) (hne : tiles ≠ []) :
    c.hands (calls.map GroupCall.statement) [] = .ok [tiles] := by
  have hloop : (calls.map GroupCall.statement).any Statement.isLoop = false := by
    simp [GroupCall.statement, Statement.isLoop]
  refine hands_eq_ok.mpr ⟨_, effects_calls [] h, ?_⟩
  unfold blockHands
  rw [hloop]
  simp [hne]

/-- The hands of a block with a single loop are those of its passes. -/
theorem hands_level {l : Loop} {body : List Statement} {vs : List Value}
    {hss : List (List (List String))} (hdepth : c.depth < c.config.maxDepth)
    (hsource : { c with depth := c.depth + 1 }.elements l.source = .ok vs)
    (hpasses : List.Forall₂ (fun v hs => (c.enter l v).hands body [] = .ok hs) vs hss) :
    c.hands (l.level.block body) [] = .ok hss.flatten := by
  refine hands_block.mpr ⟨⟨c.frame, [], []⟩, { c with depth := c.depth + 1 }, vs,
    ⟨rfl, inLoop_eq_ok.mpr ⟨hdepth, rfl⟩, hsource⟩, hss, hpasses.imp fun v hs hhs => ?_,
      ⟨c.frame, [], []⟩, rfl, by simp⟩
  exact elementHands_eq_ok.mpr ⟨_, rfl, hhs⟩

/-- If the body has one hand for every choice, the block around it has these hands in the order of
the choices. -/
theorem hands_loops {loops : List Loop} {items : List (List Value)} {body : List Statement}
    {R : List Value → List String → Prop} (hvisits : c.Visits loops items)
    (hbody : ∀ choice ∈ choices items, ∃ tiles, R choice tiles ∧
      (c.within loops choice).hands body [] = .ok [tiles]) :
    ∃ hs, c.hands (nested (loops.map Loop.level) body) [] = .ok hs ∧
      List.Forall₂ R (choices items) hs := by
  -- By induction on the loops, from the outermost one: each of its elements gives a block of hands.
  induction hvisits generalizing R with
  | nil =>
    obtain ⟨tiles, hR, hhs⟩ := hbody [] (List.mem_singleton_self [])
    exact ⟨[tiles], hhs, .cons hR .nil⟩
  | @cons c l loops vs items hdepth hsource hinside ih =>
    have hpass : ∀ v ∈ vs, ∃ hs,
        (c.enter l v).hands (nested (loops.map Loop.level) body) [] = .ok hs ∧
          List.Forall₂ R ((choices items).map (v :: ·)) hs := by
      intro v hv
      obtain ⟨hs, hhs, hR⟩ := ih v hv (R := fun choice => R (v :: choice)) fun choice hchoice =>
        hbody (v :: choice) (List.mem_flatMap.mpr ⟨v, hv, List.mem_map.mpr ⟨choice, hchoice, rfl⟩⟩)
      exact ⟨hs, hhs, List.forall₂_map_left_iff.mpr hR⟩
    obtain ⟨hss, hhss⟩ := exists_forall₂ hpass
    have hhands := hands_level hdepth hsource (hhss.imp fun _ _ h => h.1)
    refine ⟨hss.flatten, hhands, ?_⟩
    rw [choices, List.flatMap_def]
    exact List.rel_flatten (List.forall₂_map_left_iff.mpr (hhss.imp fun _ _ h => h.2))

/-! ## What is bound inside loops -/

/-- Inside a loop its variable has the element's value, and other names have the values that they
have around it. -/
theorem lookup_enter (c : Context) (l : Loop) (v : Value) (name : String) :
    Expansion.lookup name ((c.enter l v).frame :: (c.enter l v).outer) =
      if l.name = name then some v else Expansion.lookup name (c.frame :: c.outer) := by
  change Expansion.lookup name (Record.empty.insert l.name v :: c.frame :: c.outer) = _
  unfold Expansion.lookup
  rw [List.findSome?_cons, Record.get?_insert]
  by_cases hname : l.name = name
  · rw [if_pos hname, if_pos hname]
  · rw [if_neg hname, if_neg hname, Record.get?_empty]

/-- Names that are no variables of the loops have the same values inside them. -/
theorem within_agree {names : List String} {loops : List Loop}
    (hnames : ∀ name ∈ names, ∀ l ∈ loops, l.name ≠ name) (c : Context) (choice : List Value) :
    (c.within loops choice).view.Agree names c.view := by
  induction loops generalizing c choice with
  | nil => exact ⟨rfl, fun _ _ => rfl⟩
  | cons l loops ih =>
    cases choice with
    | nil => exact ⟨rfl, fun _ _ => rfl⟩
    | cons v choice =>
      have henter : (c.enter l v).view.Agree names c.view := by
        refine ⟨rfl, fun name hname => ?_⟩
        have hne := hnames name hname l (List.mem_cons_self ..)
        exact (lookup_enter c l v name).trans (if_neg hne)
      have hinside := ih (fun name hname l hl => hnames name hname l (List.mem_cons_of_mem _ hl))
        (c.enter l v) choice
      exact hinside.trans henter

/-- If no element is a builtin, builtins are bound under no other names inside loops than around
them. -/
theorem within_ownNames {loops : List Loop} {choice : List Value} (hown : c.OwnNames)
    (hchoice : ∀ v ∈ choice, ∀ bound, v ≠ .builtin bound) : (c.within loops choice).OwnNames := by
  induction loops generalizing c choice with
  | nil => exact hown
  | cons l loops ih =>
    cases choice with
    | nil => exact hown
    | cons v choice =>
      obtain ⟨hv, hothers⟩ := List.forall_mem_cons.mp hchoice
      refine ih (fun name bound hbound => ?_) hothers
      rw [lookup_enter] at hbound
      split at hbound
      · exact absurd (Option.some.inj hbound) (hv bound)
      · exact hown name bound hbound

end Context

/-- Metadata is no builtin. -/
theorem Value.ofDatum_ne_builtin (d : Datum) (bound : String) : ofDatum d ≠ .builtin bound := by
  cases d <;> simp [ofDatum]

/-- A program binds builtins under no other names than their own. -/
theorem Context.ofProgram_ownNames (program : Program) (config : Config) :
    (ofProgram program config).OwnNames := by
  intro name bound hbound
  -- At the start the only scope is the outermost one.
  have hscope : (Expansion.outermostScope program.metadata).get? name = some (.builtin bound) := by
    change Expansion.lookup name [Expansion.outermostScope program.metadata] = _ at hbound
    unfold Expansion.lookup at hbound
    rw [List.findSome?_cons] at hbound
    cases hget : (Expansion.outermostScope program.metadata).get? name with
    | none =>
      rw [hget] at hbound
      cases hbound
    | some v =>
      rw [hget] at hbound
      exact hbound
  refine Expansion.outermostScope_forall
    (P := fun name v => ∀ bound, v = .builtin bound → bound = name)
    (fun b _ bound h => ?_) (fun entry _ bound h => ?_) name _ hscope bound rfl
  · cases h
    rfl
  · exact absurd h (Value.ofDatum_ne_builtin entry.2 bound)

/-! ## Literals as sources -/

/-- An element of a list literal stands for an integer, for a tile, or for the tile of its own name
if that is one of the names `free`. -/
inductive Expr.Stands (free : String → Prop) : Expr → Value → Prop where
  | number {n : Int64} {p : Position} : Stands free (.number n p) (.integer n)
  | tile {code : String} {p : Position} : Stands free (.tile code p) (.symbol code)
  | atom {name : String} {p : Position} (hfree : free name) :
      Stands free (.identifier name p) (.symbol name)

/-- A range literal lists its integers, and a list literal what its elements stand for. -/
inductive Expr.Lists (free : String → Prop) : Expr → List Value → Prop where
  | range {first last : Int64} {p : Position} :
      Lists free (.range first last p) ((Number.range first last).map .integer)
  | tuple {elements : List Expr} {vs : List Value} {p : Position}
      (helements : List.Forall₂ (Stands free) elements vs) : Lists free (.tuple elements p) vs

/-- Literals list no builtins. -/
theorem Expr.Lists.ne_builtin {free : String → Prop} {source : Expr} {vs : List Value}
    (h : source.Lists free vs) : ∀ v ∈ vs, ∀ bound, v ≠ .builtin bound := by
  cases h with
  | range =>
    intro v hv bound
    obtain ⟨n, -, rfl⟩ := List.mem_map.mp hv
    simp
  | tuple helements =>
    induction helements with
    | nil => exact List.forall_mem_nil _
    | cons hfirst _ ih =>
      refine List.forall_mem_cons.mpr ⟨fun bound => ?_, ih⟩
      cases hfirst <;> simp

namespace Context

variable {c : Context} {free : String → Prop}

/-- A name is bound to nothing and may stand for itself. -/
def Unbound (c : Context) (name : String) : Prop :=
  c.config.symbolAtoms = true ∧ Expansion.lookup name (c.frame :: c.outer) = none

/-- A literal has the elements that it lists, within the limits. -/
theorem elements_of_lists {source : Expr} {vs : List Value} (h : source.Lists free vs)
    (hfree : ∀ name, free name → c.Unbound name) (hdepth : c.depth < c.config.maxDepth)
    (hcount : vs.length ≤ c.config.maxItems) : c.elements source = .ok vs := by
  have hvalue : c.value source = .ok (.list vs) := by
    -- Ranges are counted before they are made, while the elements of a tuple are evaluated one by
    -- one.
    cases h with
    | @range first last p =>
      rw [value_range]
      refine bind_eq_ok.mpr ⟨(), Expansion.checkCount_eq_ok.mpr ?_, rfl⟩
      simpa using hcount
    | @tuple elements _ p helements =>
      have hvalues : Expansion.View.run { c.view with depth := c.depth + 1 }
          (Expansion.exprValues elements .symbol) = .ok vs := by
        refine Expansion.View.run_exprValues.mpr (helements.imp fun e v hstands => ?_)
        cases hstands with
        | number => rfl
        | tile => rfl
        | @atom name p hname =>
          obtain ⟨hatoms, hnone⟩ := hfree name hname
          exact Expansion.View.run_nameValue.mpr (.inr ⟨hnone, by simp [view, hatoms], rfl⟩)
      unfold value
      rw [Expansion.exprValue]
      refine Expansion.View.run_nest.mpr ⟨hdepth, ?_⟩
      exact (Expansion.View.run_bind (Expansion.exprValues_readOnly elements .symbol)).mpr
        ⟨vs, hvalues, rfl⟩
  refine bind_eq_ok.mpr ⟨_, hvalue, rfl⟩

/-- Nested loops over literals visit what these list. -/
theorem visits_of_lists {loops : List Loop} {items : List (List Value)}
    (hsources : List.Forall₂ (fun l vs => l.source.Lists free vs ∧ vs.length ≤ c.config.maxItems)
      loops items)
    (hfree : ∀ name, free name → c.Unbound name ∧ ∀ l ∈ loops, l.name ≠ name)
    (hdepth : c.depth + loops.length < c.config.maxDepth) : c.Visits loops items := by
  generalize hconfig : c.config.maxItems = limit at hsources
  -- By induction on the loops; none of them binds a name that stands for itself.
  induction hsources generalizing c with
  | nil => exact .nil
  | @cons l vs loops items hsource _ ih =>
    rw [List.length_cons] at hdepth
    refine .cons (by omega) ?_ fun v _ => ih (fun name hname => ?_) ?_ hconfig
    · refine elements_of_lists hsource.1 (fun name hname => (hfree name hname).1) ?_ ?_
      · dsimp only
        omega
      · dsimp only
        rw [hconfig]
        exact hsource.2
    · obtain ⟨⟨hatoms, hnone⟩, hnames⟩ := hfree name hname
      obtain ⟨hne, hothers⟩ := List.forall_mem_cons.mp hnames
      exact ⟨⟨hatoms, (lookup_enter c l v name).trans ((if_neg hne).trans hnone)⟩, hothers⟩
    · change c.depth + 1 + loops.length < c.config.maxDepth
      omega

end Context

end HandTemplate
