import HandTemplate.Proofs.Expansion.Levels
import HandTemplate.Proofs.Reach.Moment

/-!
# How deep a program goes

The limit on depth is met exactly by what is nested too deep: with as many levels left as a program
takes it does not fail for its depth, and with fewer it does not succeed. For the latter every part
of it has to be run, and the body of a loop is run only if the loop has an element to visit. Main
statement: `levels_exact`.
-/

namespace HandTemplate

namespace Expansion

variable {m m' : Expansion}

/-! ## Parts of what succeeds -/

/-- The statements of a block that succeeds have succeeded. -/
theorem runAll_eq_ok_of_runBlock {statements : List Statement} {p : Position}
    (h : runBlock statements p m = .ok () m') :
    ∃ m'', runAll statements m.variations.size false m = .ok () m'' := by
  unfold runBlock block at h
  rw [bind_apply, get_apply] at h
  obtain ⟨_, m'', hrun, -⟩ := bind_apply_eq_ok.mp h
  exact ⟨m'', hrun⟩

/-- In a turn that succeeds the element is bound, and then the body succeeds as a block. -/
theorem runBlock_eq_ok_of_turn {binding : Binding} {body : List Statement} {p : Position}
    {item : Value} (h : turn binding body p item m = .ok () m') :
    ∃ m₁ m₂, assign binding item p m.openScope = .ok () m₁ ∧ runBlock body p m₁ = .ok () m₂ := by
  obtain ⟨m₂, hrun, -⟩ := Context.inScope_eq_ok.mp h
  obtain ⟨_, m₁, hassign, hbody⟩ := bind_apply_eq_ok.mp hrun
  exact ⟨m₁, m₂, hassign, hbody⟩

/-- A loop that succeeds takes its turns for the elements of its source. -/
theorem forValues_eq_ok_of_run {binding : Binding} {source : Expr} {body : List Statement}
    {p : Position} {first : Nat} {looped : Bool}
    (h : run (.foreach binding source body p) first looped m = .ok () m') :
    ∃ items m'', Moment.Starts ⟨.statement (.foreach binding source body p) first looped, m⟩
        ⟨.turns binding body p items, m.deeper⟩ ∧
      forValues (turn binding body p) items m.deeper = .ok () m'' := by
  -- The level of the loop is there, its source has a value, and that value has elements.
  obtain ⟨hdepth, m'', hloop, -⟩ := eq_ok_of_nest h
  change forEach source (turn binding body p) m.deeper = .ok () m'' at hloop
  rw [forEach_eq] at hloop
  obtain ⟨v, m₁, hsource, hturns⟩ := bind_apply_eq_ok.mp hloop
  obtain rfl : m₁ = m.deeper := by
    rw [(exprValue_readOnly source .nothing).eq m.deeper, settle_eq_ok] at hsource
    exact hsource.2
  cases hitems : v.elements? with
  | none =>
    rw [hitems] at hturns
    cases hturns
  | some items =>
    rw [hitems] at hturns
    exact ⟨items, m'', .turns hdepth hsource hitems, hturns⟩

/-! ## Loops that visit something -/

namespace Moment

/-- Every loop that a moment comes to has an element to visit. -/
def Visits (x : Moment) : Prop :=
  ∀ binding source body p first looped items m m',
    x.Reaches ⟨.statement (.foreach binding source body p) first looped, m⟩ →
      Starts ⟨.statement (.foreach binding source body p) first looped, m⟩
        ⟨.turns binding body p items, m'⟩ → items ≠ []

/-- Every loop that is come to from here is one that a moment before comes to. -/
theorem Visits.starts {x y : Moment} (hx : x.Visits) (h : Starts x y) : y.Visits :=
  fun _ _ _ _ _ _ _ _ _ hreaches => hx _ _ _ _ _ _ _ _ _ (.head h hreaches)

/-- A loop with an element to visit runs its body, at the depth of its turns. -/
theorem Visits.body {binding : Binding} {source : Expr} {body : List Statement} {p : Position}
    {first : Nat} {looped : Bool}
    (hx : Visits ⟨.statement (.foreach binding source body p) first looped, m⟩)
    (h : run (.foreach binding source body p) first looped m = .ok () m') :
    ∃ m₁ m₂, Visits ⟨.remaining body m₁.variations.size false, m₁⟩ ∧
      m₁.depth = m.deeper.depth ∧ m₁.config = m.config ∧
        runAll body m₁.variations.size false m₁ = .ok () m₂ := by
  obtain ⟨items, m'', hturns, hrun⟩ := forValues_eq_ok_of_run h
  obtain ⟨item, items, rfl⟩ :=
    List.exists_cons_of_ne_nil (hx _ _ _ _ _ _ _ _ _ .refl hturns)
  obtain ⟨_, m₀, hturn, -⟩ := bind_apply_eq_ok.mp hrun
  obtain ⟨m₁, m₂, hassign, hblock⟩ := runBlock_eq_ok_of_turn hturn
  obtain ⟨m₃, hbody⟩ := runAll_eq_ok_of_runBlock hblock
  obtain ⟨hdepth, hconfig⟩ := (assign_takes (k := 0) binding item p).keeps hassign
  exact ⟨m₁, m₃, (((hx.starts hturns).starts .turn).starts (.body hassign)).starts .block,
    hdepth, hconfig, hbody⟩

end Moment

/-! ## Statements that need levels -/

mutual

/-- A statement that succeeds has had the levels of its nesting if every loop it comes to visits
something. -/
theorem run_needs : (s : Statement) → (first : Nat) → (looped : Bool) → (m m' : Expansion) →
    Moment.Visits ⟨.statement s first looped, m⟩ → m.depth ≤ m.config.maxDepth →
      run s first looped m = .ok () m' → m.depth + s.nesting ≤ m.config.maxDepth
  | .assign target value p, _, _, m, m', _, hdepth, hrun =>
    ((exprValue_needs value .nothing).first fun v => assign target v p) m () m' hdepth hrun
  | .call name arguments p, _, _, m, m', _, hdepth, hrun =>
    ((callValue_needs name arguments p).first _) m () m' hdepth hrun
  | .foreach binding source body p, first, looped, m, m', hvisits, hdepth, hrun => by
    -- The source is evaluated in any case, and the body is run in the turn of the first element.
    have hsource : m.depth + (source.height 1 + 1) ≤ m.config.maxDepth := by
      have hloop : Needs (source.height 1 + 1) (nest p (forEach source (turn binding body p))) := by
        rw [forEach_eq]
        exact .nest p ((exprValue_needs source .nothing).first _)
      exact hloop m () m' hdepth hrun
    obtain ⟨m₁, m₂, hbodyVisits, hdepth₁, hconfig₁, hbody⟩ := hvisits.body hrun
    simp only [deeper] at hdepth₁
    have hbodyLevels := runAll_needs body m₁.variations.size false m₁ m₂ hbodyVisits
      (by rw [hdepth₁, hconfig₁]; omega) hbody
    rw [hdepth₁, hconfig₁] at hbodyLevels
    rw [Statement.nesting]
    omega

/-- Statements that succeed have had the levels of the deepest of them. -/
theorem runAll_needs : (statements : List Statement) → (first : Nat) → (looped : Bool) →
    (m m' : Expansion) → Moment.Visits ⟨.remaining statements first looped, m⟩ →
      m.depth ≤ m.config.maxDepth → runAll statements first looped m = .ok () m' →
        m.depth + Statement.nestings statements ≤ m.config.maxDepth
  | [], _, _, _, _, _, hdepth, _ => hdepth
  | s :: statements, first, looped, m, m', hvisits, hdepth, hrun => by
    obtain ⟨_, m₁, hfirst, hrest⟩ := bind_apply_eq_ok.mp hrun
    obtain ⟨hdepth₁, hconfig₁⟩ := (run_takes s first looped).keeps hfirst
    have hlevels := run_needs s first looped m m₁ (hvisits.starts .statement) hdepth hfirst
    have hothers := runAll_needs statements first (looped || s.isLoop) m₁ m'
      (hvisits.starts (.remaining hfirst)) (by rwa [hdepth₁, hconfig₁]) hrest
    rw [hdepth₁, hconfig₁] at hothers
    rw [Statement.nestings]
    omega

end

end Expansion

/-! ## Programs -/

open Expansion

namespace Program

variable {program : Program} {m m' : Expansion}

/-- The moment in which the body of a program begins if the program is run in some state. -/
def entry (program : Program) (m : Expansion) : Moment where
  activity := .block program.body .start
  state :=
    { m with
      scopes := [outermostScope program.metadata]
      name := program.metadata.text? "name"
      description := program.metadata.text? "description" }

/-- A program that expands to some hands runs to an end. -/
theorem runProgram_eq_ok {config : Config} {vs : List Variation}
    (h : program.expand config = .ok vs) : ∃ m, runProgram program (.new config) = .ok vs m := by
  unfold Program.expand at h
  split at h
  next m hrun =>
    cases h
    exact ⟨m, hrun⟩
  next => cases h

/-- A program takes the levels of its statements. -/
theorem runProgram_takes (program : Program) : Takes program.nesting (runProgram program) := by
  unfold runProgram
  refine Takes.bind ?_ fun _ => ?_
  · exact .modify fun _ => ⟨rfl, rfl⟩
  · exact (block_takes program.body .start fun first => runAll_takes program.body first false).bind
      fun _ => .get fun m => .pure m.variations.toList

/-- A program that succeeds has had its levels if every loop it comes to visits something. -/
theorem runProgram_needs {vs : List Variation} (hvisits : (program.entry m).Visits)
    (hdepth : m.depth ≤ m.config.maxDepth) (h : runProgram program m = .ok vs m') :
    m.depth + program.nesting ≤ m.config.maxDepth := by
  obtain ⟨_, _, hentry, hrun⟩ := bind_apply_eq_ok.mp h
  cases hentry
  obtain ⟨_, _, hblock, -⟩ := bind_apply_eq_ok.mp hrun
  obtain ⟨m'', hbody⟩ := runAll_eq_ok_of_runBlock hblock
  exact runAll_needs program.body _ false (program.entry m).state m''
    (hvisits.starts Moment.Starts.block) hdepth hbody

end Program

/-! ## Loops that visit something by their form -/

/-- An expression whose value, if it has one, has elements: a tuple with elements, or a range that
does not end before it begins. -/
inductive Expr.Filled : Expr → Prop where
  | tuple {elements : List Expr} {p : Position} (helements : elements ≠ []) :
      Filled (.tuple elements p)
  | range {first last : Int64} {p : Position} (hrange : Number.count first last ≠ 0) :
      Filled (.range first last p)

/-- A statement in which the source of every loop is filled. -/
inductive Statement.Filled : Statement → Prop where
  | assign {target : Binding} {value : Expr} {p : Position} : Filled (.assign target value p)
  | foreach {binding : Binding} {source : Expr} {body : List Statement} {p : Position}
      (hsource : source.Filled) (hbody : ∀ s ∈ body, Filled s) :
      Filled (.foreach binding source body p)
  | call {name : String} {arguments : List Expr} {p : Position} : Filled (.call name arguments p)

namespace Expansion

variable {m m' : Expansion}

/-- There are as many values as expressions. -/
theorem exprValues_length {es : List Expr} {fallback : Fallback} {vs : List Value}
    (h : exprValues es fallback m = .ok vs m') : vs.length = es.length := by
  induction es generalizing vs m m' with
  | nil =>
    cases h
    rfl
  | cons e es ih =>
    obtain ⟨_, _, -, hrest⟩ := bind_apply_eq_ok.mp h
    obtain ⟨_, _, hvs, hpure⟩ := bind_apply_eq_ok.mp hrest
    cases hpure
    rw [List.length_cons, ih hvs, List.length_cons]

/-- A loop over a source with something in it has something to visit. -/
theorem elements_of_filled {source : Expr} (hsource : source.Filled) {v : Value}
    (h : exprValue source .nothing m = .ok v m') {items : List Value}
    (hitems : v.elements? = some items) : items ≠ [] := by
  -- A tuple has as many items as it has expressions, a range as many as there are integers in it.
  cases hsource with
  | @tuple elements p helements =>
    obtain ⟨-, _, hstep, -⟩ := eq_ok_of_nest h
    obtain ⟨vs, _, hvs, hpure⟩ := bind_apply_eq_ok.mp hstep
    cases hpure
    cases hitems
    rw [← List.length_pos_iff, exprValues_length hvs]
    exact List.length_pos_iff.mpr helements
  | @range first last p hrange =>
    obtain ⟨_, _, -, hrest⟩ := bind_apply_eq_ok.mp h
    obtain ⟨hinterval, -⟩ := ofExcept_eq_ok.mp hrest
    obtain ⟨-, rfl⟩ := Builtin.interval_eq_ok.mp hinterval
    cases hitems
    rw [← List.length_pos_iff, List.length_map, Number.length_range]
    exact Nat.pos_of_ne_zero hrange

/-- The statements that an activity may still run. -/
def Activity.statements : Activity → List Statement
  | block statements _ | remaining statements _ _ => statements
  | statement s _ _ => [s]
  | turns _ body _ _ | turn _ body _ _ => body
  | call _ _ _ | value _ _ | values _ _ => []

namespace Moment

/-- Where statements have something to visit, so have those that are run next. -/
theorem Starts.filled {x y : Moment} (h : Starts x y)
    (hx : ∀ s ∈ x.activity.statements, s.Filled) : ∀ s ∈ y.activity.statements, s.Filled := by
  cases h with
  | block => exact hx
  | statement =>
    intro s hs
    rw [List.mem_singleton.mp hs]
    exact hx _ (List.mem_cons_self ..)
  | remaining => exact fun s hs => hx s (List.mem_cons_of_mem _ hs)
  | turns =>
    cases hx _ (List.mem_singleton_self _) with | foreach _ hbody => exact hbody
  | turn | moreTurns | body => exact hx
  | _ => exact fun _ hs => nomatch hs

/-- If the sources of all loops are filled, then every loop has an element to visit. -/
theorem visits_of_filled {x : Moment} (hx : ∀ s ∈ x.activity.statements, s.Filled) :
    x.Visits := by
  intro binding source body p first looped items m m' hreaches hstarts
  have hloop : ∀ y, x.Reaches y → ∀ s ∈ y.activity.statements, s.Filled := by
    intro y hy
    induction hy with
    | refl => exact hx
    | tail _ hstep ih => exact hstep.filled ih
  cases hloop _ hreaches _ (List.mem_singleton_self _) with
  | foreach hsource _ =>
    cases hstarts with
    | turns _ hvalue hitems => exact elements_of_filled hsource hvalue hitems

end Moment

/-! ## The limit -/

/-- The limit on depth is exact. In any state whose depth is within the limit, an expression that
has a value has as many levels left as it is high, and if there are so many left, then it does not
fail for its depth. So it is for a program and the levels of its nesting, where for the first half
every loop that the program comes to has to have an element. -/
theorem levels_exact (m : Expansion) (hdepth : m.depth ≤ m.config.maxDepth) :
    (∀ (e : Expr) (fallback : Fallback),
      (∀ v m', exprValue e fallback m = .ok v m' → m.depth + e.height 1 ≤ m.config.maxDepth) ∧
        (m.depth + e.height 1 ≤ m.config.maxDepth →
          ∀ limit p, ¬ Fails (exprValue e fallback) m ⟨.tooDeep limit, p⟩)) ∧
    ∀ program : Program,
      ((program.entry m).Visits → ∀ vs m', runProgram program m = .ok vs m' →
        m.depth + program.nesting ≤ m.config.maxDepth) ∧
      (m.depth + program.nesting ≤ m.config.maxDepth →
        ∀ limit p, ¬ Fails (runProgram program) m ⟨.tooDeep limit, p⟩) := by
  refine ⟨fun e fallback => ⟨fun v m' => exprValue_needs e fallback m v m' hdepth,
    fun hlevels limit p hfails => ?_⟩, fun program => ⟨fun hvisits vs m' =>
      Program.runProgram_needs hvisits hdepth, fun hlevels limit p hfails => ?_⟩⟩
  · exact (exprValue_takes e fallback).enough hlevels hfails trivial
  · exact (Program.runProgram_takes program).enough hlevels hfails trivial

/-- A loop over two numbers whose body calls a builtin for a sum takes three levels. With three it
runs, and with two there is none for the sum. -/
theorem levels_exact_loop :
    let sum : Expr := .binary .add (.identifier "x" ⟨2, 6⟩) (.number 1 ⟨2, 10⟩) ⟨2, 6⟩
    let program : Program := ⟨.empty,
      [.foreach (.name "x") (.range 1 2 ⟨1, 14⟩) [.call "pair" [sum] ⟨2, 1⟩] ⟨1, 1⟩]⟩
    let m := new { maxDepth := 3 }
    m.depth ≤ m.config.maxDepth ∧ (program.entry m).Visits ∧
      (∃ m', runProgram program m = .ok [⟨["2", "2"], none, none⟩, ⟨["3", "3"], none, none⟩] m') ∧
      m.depth + program.nesting ≤ m.config.maxDepth ∧
      (∀ limit p, ¬ Fails (runProgram program) m ⟨.tooDeep limit, p⟩) ∧
      program.expand { maxDepth := 2 } = .error ⟨.tooDeep 2, ⟨2, 6⟩⟩ := by
  intro sum program m
  -- The only loop is over a range with something in it.
  have hvisits : (program.entry m).Visits := by
    refine Moment.visits_of_filled fun s hs => ?_
    rw [List.mem_singleton.mp hs]
    refine .foreach (.range (by decide)) fun s hs => ?_
    rw [List.mem_singleton.mp hs]
    exact .call
  have hexpand : program.expand m.config =
      .ok [⟨["2", "2"], none, none⟩, ⟨["3", "3"], none, none⟩] := by cbv
  obtain ⟨m', hrun⟩ := Program.runProgram_eq_ok hexpand
  obtain ⟨-, hprograms⟩ := levels_exact m (by decide)
  have hlevels := (hprograms program).1 hvisits _ m' hrun
  exact ⟨by decide, hvisits, ⟨m', hrun⟩, hlevels, (hprograms program).2 hlevels, by cbv⟩

end Expansion

end HandTemplate
