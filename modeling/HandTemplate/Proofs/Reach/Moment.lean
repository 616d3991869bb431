import Mathlib
import HandTemplate.Proofs.Expansion.Failing

/-!
# Moments of an expansion

An expansion is a tree of activities: a block runs its statements, a loop evaluates its source and
then takes its turns, an expression evaluates its parts. A moment is an activity with the state in
which it begins, and one moment starts another if the activity comes to it. The moments that are
reached from the first one are all that happens in an expansion. Main statement:
`fails_iff_reaches`, by which an activity fails with a fault exactly if it reaches a moment that
raises that fault itself.
-/

namespace HandTemplate

namespace Expansion

/-- What an expansion does. -/
inductive Activity where
  /-- It runs a block. -/
  | block (statements : List Statement) (position : Position)
  /-- It runs what remains of a block that began when `first` variations were finished. -/
  | remaining (statements : List Statement) (first : Nat) (looped : Bool)
  /-- It runs one of these statements. -/
  | statement (s : Statement) (first : Nat) (looped : Bool)
  /-- It takes the turns of a loop for some elements. -/
  | turns (binding : Binding) (body : List Statement) (position : Position) (items : List Value)
  /-- It takes the turn for one element. -/
  | turn (binding : Binding) (body : List Statement) (position : Position) (item : Value)
  /-- It calls a builtin. -/
  | call (name : String) (arguments : List Expr) (position : Position)
  /-- It evaluates an expression. -/
  | value (e : Expr) (fallback : Fallback)
  /-- It evaluates some expressions. -/
  | values (es : List Expr) (fallback : Fallback)

/-- The step that an activity takes, with the values that it gives. -/
def Activity.step : Activity → Step (List Value)
  | block statements position => (fun _ => []) <$> runBlock statements position
  | remaining statements first looped => (fun _ => []) <$> runAll statements first looped
  | statement s first looped => (fun _ => []) <$> run s first looped
  | turns binding body position items =>
    (fun _ => []) <$> forValues (Expansion.turn binding body position) items
  | turn binding body position item => (fun _ => []) <$> Expansion.turn binding body position item
  | call name arguments position => ([·]) <$> callValue name arguments position
  | value e fallback => ([·]) <$> exprValue e fallback
  | values es fallback => exprValues es fallback

/-- The position for which an activity is too deep if there is no level for it. -/
def Activity.level? : Activity → Option Position
  | statement (.foreach _ _ _ p) _ _ => some p
  | value (.tuple _ p) _ | value (.index _ _ p) _ | value (.binary _ _ _ p) _ => some p
  | _ => none

/-- An activity and the state in which it begins. -/
structure Moment where
  /-- The activity. -/
  activity : Activity
  /-- The state. -/
  state : Expansion

namespace Moment

/-- The activity of a moment fails with a fault. -/
def Fails (x : Moment) (e : ExpansionFault) : Prop := Expansion.Fails x.activity.step x.state e

/-- The activity of one moment comes to that of another one. -/
inductive Starts : Moment → Moment → Prop where
  | block {statements : List Statement} {p : Position} {m : Expansion} :
      Starts ⟨.block statements p, m⟩ ⟨.remaining statements m.variations.size false, m⟩
  | statement {s : Statement} {statements : List Statement} {first : Nat} {looped : Bool}
      {m : Expansion} :
      Starts ⟨.remaining (s :: statements) first looped, m⟩ ⟨.statement s first looped, m⟩
  | remaining {s : Statement} {statements : List Statement} {first : Nat} {looped : Bool}
      {m m' : Expansion} (hrun : run s first looped m = .ok () m') :
      Starts ⟨.remaining (s :: statements) first looped, m⟩
        ⟨.remaining statements first (looped || s.isLoop), m'⟩
  | assigned {target : Binding} {e : Expr} {p : Position} {first : Nat} {looped : Bool}
      {m : Expansion} :
      Starts ⟨.statement (.assign target e p) first looped, m⟩ ⟨.value e .nothing, m⟩
  | called {name : String} {arguments : List Expr} {p : Position} {first : Nat} {looped : Bool}
      {m : Expansion} :
      Starts ⟨.statement (.call name arguments p) first looped, m⟩ ⟨.call name arguments p, m⟩
  | source {binding : Binding} {source : Expr} {body : List Statement} {p : Position} {first : Nat}
      {looped : Bool} {m : Expansion} (hdepth : m.depth < m.config.maxDepth) :
      Starts ⟨.statement (.foreach binding source body p) first looped, m⟩
        ⟨.value source .nothing, m.deeper⟩
  | turns {binding : Binding} {source : Expr} {body : List Statement} {p : Position} {first : Nat}
      {looped : Bool} {m : Expansion} {v : Value} {items : List Value}
      (hdepth : m.depth < m.config.maxDepth)
      (hsource : exprValue source .nothing m.deeper = .ok v m.deeper)
      (hitems : v.elements? = some items) :
      Starts ⟨.statement (.foreach binding source body p) first looped, m⟩
        ⟨.turns binding body p items, m.deeper⟩
  | turn {binding : Binding} {body : List Statement} {p : Position} {item : Value}
      {items : List Value} {m : Expansion} :
      Starts ⟨.turns binding body p (item :: items), m⟩ ⟨.turn binding body p item, m⟩
  | moreTurns {binding : Binding} {body : List Statement} {p : Position} {item : Value}
      {items : List Value} {m m' : Expansion}
      (hturn : Expansion.turn binding body p item m = .ok () m') :
      Starts ⟨.turns binding body p (item :: items), m⟩ ⟨.turns binding body p items, m'⟩
  | body {binding : Binding} {body : List Statement} {p : Position} {item : Value}
      {m m' : Expansion} (hassign : assign binding item p m.openScope = .ok () m') :
      Starts ⟨.turn binding body p item, m⟩ ⟨.block body p, m'⟩
  | arguments {name : String} {arguments : List Expr} {p : Position} {m : Expansion} {b : Builtin}
      (hcallee : callee name p m = .ok b m) (hdepth : m.depth < m.config.maxDepth) :
      Starts ⟨.call name arguments p, m⟩ ⟨.values arguments b.fallback, m.deeper⟩
  | call {name : String} {arguments : List Expr} {p : Position} {fallback : Fallback}
      {m : Expansion} :
      Starts ⟨.value (.call name arguments p) fallback, m⟩ ⟨.call name arguments p, m⟩
  | elements {elements : List Expr} {p : Position} {fallback : Fallback} {m : Expansion}
      (hdepth : m.depth < m.config.maxDepth) :
      Starts ⟨.value (.tuple elements p) fallback, m⟩ ⟨.values elements .symbol, m.deeper⟩
  | target {target place : Expr} {p : Position} {fallback : Fallback} {m : Expansion}
      (hdepth : m.depth < m.config.maxDepth) :
      Starts ⟨.value (.index target place p) fallback, m⟩ ⟨.value target .nothing, m.deeper⟩
  | place {target place : Expr} {p : Position} {fallback : Fallback} {m : Expansion} {v : Value}
      (hdepth : m.depth < m.config.maxDepth)
      (htarget : exprValue target .nothing m.deeper = .ok v m.deeper) :
      Starts ⟨.value (.index target place p) fallback, m⟩ ⟨.value place .nothing, m.deeper⟩
  | left {operator : Operator} {left right : Expr} {p : Position} {fallback : Fallback}
      {m : Expansion} (hdepth : m.depth < m.config.maxDepth) :
      Starts ⟨.value (.binary operator left right p) fallback, m⟩ ⟨.value left .nothing, m.deeper⟩
  | right {operator : Operator} {left right : Expr} {p : Position} {fallback : Fallback}
      {m : Expansion} {v : Value} (hdepth : m.depth < m.config.maxDepth)
      (hleft : exprValue left .nothing m.deeper = .ok v m.deeper) :
      Starts ⟨.value (.binary operator left right p) fallback, m⟩ ⟨.value right .nothing, m.deeper⟩
  | value {e : Expr} {es : List Expr} {fallback : Fallback} {m : Expansion} :
      Starts ⟨.values (e :: es) fallback, m⟩ ⟨.value e fallback, m⟩
  | values {e : Expr} {es : List Expr} {fallback : Fallback} {m : Expansion} {v : Value}
      (hvalue : exprValue e fallback m = .ok v m) :
      Starts ⟨.values (e :: es) fallback, m⟩ ⟨.values es fallback, m⟩

/-- The activity of a moment raises a fault itself, after all that it comes to has succeeded. -/
inductive Raises : Moment → ExpansionFault → Prop where
  | variations {statements : List Statement} {p : Position} {m m' : Expansion} {e : ExpansionFault}
      (hrun : runAll statements m.variations.size false m = .ok () m')
      (hleaf : statements.any Statement.isLoop = false) (hbuffer : m'.buffer.isEmpty = false)
      (hcount : checkCount "variations" (m'.variations.size + 1) m'.config
        ((statements.getLast?.map Statement.position).getD p) = .error e) :
      Raises ⟨.block statements p, m⟩ e
  | assigned {target : Binding} {value : Expr} {p : Position} {first : Nat} {looped : Bool}
      {m : Expansion} {v : Value} {e : ExpansionFault}
      (hvalue : exprValue value .nothing m = .ok v m)
      (hassign : Expansion.Fails (assign target v p) m e) :
      Raises ⟨.statement (.assign target value p) first looped, m⟩ e
  | bound {binding : Binding} {body : List Statement} {p : Position} {item : Value} {m : Expansion}
      {e : ExpansionFault} (hassign : Expansion.Fails (assign binding item p) m.openScope e) :
      Raises ⟨.turn binding body p item, m⟩ e
  | tooDeep {a : Activity} {p : Position} {m : Expansion} (hlevel : a.level? = some p)
      (hdepth : m.config.maxDepth ≤ m.depth) :
      Raises ⟨a, m⟩ ⟨.tooDeep m.config.maxDepth, p⟩
  | noElements {binding : Binding} {source : Expr} {body : List Statement} {p : Position}
      {first : Nat} {looped : Bool} {m : Expansion} {v : Value}
      (hdepth : m.depth < m.config.maxDepth)
      (hsource : exprValue source .nothing m.deeper = .ok v m.deeper)
      (hitems : v.elements? = none) :
      Raises ⟨.statement (.foreach binding source body p) first looped, m⟩
        ⟨.noElements source.words v.type, source.position⟩
  | unknown {name : String} {arguments : List Expr} {p : Position} {m : Expansion}
      {e : ExpansionFault} (hcallee : Expansion.Fails (callee name p) m e) :
      Raises ⟨.call name arguments p, m⟩ e
  | callTooDeep {name : String} {arguments : List Expr} {p : Position} {m : Expansion} {b : Builtin}
      (hcallee : callee name p m = .ok b m) (hdepth : m.config.maxDepth ≤ m.depth) :
      Raises ⟨.call name arguments p, m⟩ ⟨.tooDeep m.config.maxDepth, p⟩
  | wrongCount {name : String} {arguments : List Expr} {p : Position} {m : Expansion} {b : Builtin}
      {vs : List Value} (hcallee : callee name p m = .ok b m)
      (hdepth : m.depth < m.config.maxDepth)
      (hvalues : exprValues arguments b.fallback m.deeper = .ok vs m.deeper)
      (harity : b.arity.accepts vs.length = false) :
      Raises ⟨.call name arguments p, m⟩ ⟨.wrongCount name b.arity vs.length, p⟩
  | applied {name : String} {arguments : List Expr} {p : Position} {m : Expansion} {b : Builtin}
      {vs : List Value} {e : ExpansionFault} (hcallee : callee name p m = .ok b m)
      (hdepth : m.depth < m.config.maxDepth)
      (hvalues : exprValues arguments b.fallback m.deeper = .ok vs m.deeper)
      (harity : b.arity.accepts vs.length = true) (happly : b.apply m.config p vs = .error e) :
      Raises ⟨.call name arguments p, m⟩ e
  | name {name : String} {p : Position} {fallback : Fallback} {m : Expansion} {e : ExpansionFault}
      (hname : Expansion.Fails (nameValue name p fallback) m e) :
      Raises ⟨.value (.identifier name p) fallback, m⟩ e
  | range {first last : Int64} {p : Position} {fallback : Fallback} {m : Expansion}
      {e : ExpansionFault} (hrange : Builtin.interval first last m.config p = .error e) :
      Raises ⟨.value (.range first last p) fallback, m⟩ e
  | item {target place : Expr} {p : Position} {fallback : Fallback} {m : Expansion} {v i : Value}
      {e : ExpansionFault} (hdepth : m.depth < m.config.maxDepth)
      (htarget : exprValue target .nothing m.deeper = .ok v m.deeper)
      (hplace : exprValue place .nothing m.deeper = .ok i m.deeper)
      (hitem : itemAt p v i = .error e) :
      Raises ⟨.value (.index target place p) fallback, m⟩ e
  | operation {operator : Operator} {left right : Expr} {p : Position} {fallback : Fallback}
      {m : Expansion} {v w : Value} {e : ExpansionFault} (hdepth : m.depth < m.config.maxDepth)
      (hleft : exprValue left .nothing m.deeper = .ok v m.deeper)
      (hright : exprValue right .nothing m.deeper = .ok w m.deeper)
      (hoperate : operate m.config p operator v w = .error e) :
      Raises ⟨.value (.binary operator left right p) fallback, m⟩ e

variable {x y : Moment} {e : ExpansionFault}

/-- What one moment starts fails for both. -/
theorem Starts.fails (h : Starts x y) (hfails : y.Fails e) : x.Fails e := by
  -- One case for each way to go on, which names the place of the failure among those of the whole
  -- activity.
  cases h <;> simp only [Fails, Activity.step, fails_map] at hfails ⊢
  case block => exact fails_runBlock.mpr (.inl hfails)
  case statement => exact fails_runAll_cons.mpr (.inl hfails)
  case remaining hrun => exact fails_runAll_cons.mpr (.inr ⟨_, hrun, hfails⟩)
  case assigned => exact fails_assignment.mpr (.inl hfails)
  case called => exact fails_callStatement.mpr hfails
  case source hdepth => exact fails_foreach.mpr (.inr ⟨hdepth, .inl hfails⟩)
  case turns hdepth hsource hitems =>
    exact fails_foreach.mpr (.inr ⟨hdepth, .inr ⟨_, hsource, .inr ⟨_, hitems, hfails⟩⟩⟩)
  case turn => exact fails_forValues_cons.mpr (.inl hfails)
  case moreTurns hturn => exact fails_forValues_cons.mpr (.inr ⟨_, hturn, hfails⟩)
  case body hassign => exact fails_turn.mpr (.inr ⟨_, hassign, hfails⟩)
  case arguments hcallee hdepth =>
    exact fails_callValue.mpr (.inr ⟨_, hcallee, .inr ⟨hdepth, .inl hfails⟩⟩)
  case call => rwa [exprValue]
  case elements hdepth => exact fails_tuple.mpr (.inr ⟨hdepth, hfails⟩)
  case target hdepth => exact fails_index.mpr (.inr ⟨hdepth, .inl hfails⟩)
  case place hdepth htarget =>
    exact fails_index.mpr (.inr ⟨hdepth, .inr ⟨_, htarget, .inl hfails⟩⟩)
  case left hdepth => exact fails_binary.mpr (.inr ⟨hdepth, .inl hfails⟩)
  case right hdepth hleft =>
    exact fails_binary.mpr (.inr ⟨hdepth, .inr ⟨_, hleft, .inl hfails⟩⟩)
  case value => exact fails_exprValues_cons.mpr (.inl hfails)
  case values hvalue => exact fails_exprValues_cons.mpr (.inr ⟨_, hvalue, hfails⟩)

/-- What is too deep for its level fails. -/
theorem fails_tooDeep {a : Activity} {p : Position} {m : Expansion} (hlevel : a.level? = some p)
    (hdepth : m.config.maxDepth ≤ m.depth) : Fails ⟨a, m⟩ ⟨.tooDeep m.config.maxDepth, p⟩ := by
  -- The loops and the expressions that take a level, each with the first of its faults.
  cases a with
  | statement s first looped =>
    cases s with
    | foreach =>
      cases hlevel
      simpa only [Fails, Activity.step, fails_map] using fails_foreach.mpr (.inl ⟨hdepth, rfl⟩)
    | _ => cases hlevel
  | value e fallback =>
    cases e with
    | tuple =>
      cases hlevel
      simpa only [Fails, Activity.step, fails_map] using fails_tuple.mpr (.inl ⟨hdepth, rfl⟩)
    | index =>
      cases hlevel
      simpa only [Fails, Activity.step, fails_map] using fails_index.mpr (.inl ⟨hdepth, rfl⟩)
    | binary =>
      cases hlevel
      simpa only [Fails, Activity.step, fails_map] using fails_binary.mpr (.inl ⟨hdepth, rfl⟩)
    | _ => cases hlevel
  | _ => cases hlevel

/-- What raises a fault fails with it. -/
theorem Raises.fails (h : Raises x e) : x.Fails e := by
  cases h
  case tooDeep hlevel hdepth => exact fails_tooDeep hlevel hdepth
  all_goals simp only [Fails, Activity.step, fails_map]
  case variations hrun hleaf hbuffer hcount =>
    exact fails_runBlock.mpr (.inr ⟨_, hrun, hleaf, hbuffer, hcount⟩)
  case assigned hvalue hassign => exact fails_assignment.mpr (.inr ⟨_, hvalue, hassign⟩)
  case bound hassign => exact fails_turn.mpr (.inl hassign)
  case noElements hdepth hsource hitems =>
    exact fails_foreach.mpr (.inr ⟨hdepth, .inr ⟨_, hsource, .inl ⟨hitems, rfl⟩⟩⟩)
  case unknown hcallee => exact fails_callValue.mpr (.inl hcallee)
  case callTooDeep hcallee hdepth =>
    exact fails_callValue.mpr (.inr ⟨_, hcallee, .inl ⟨hdepth, rfl⟩⟩)
  case wrongCount hcallee hdepth hvalues harity =>
    exact fails_callValue.mpr
      (.inr ⟨_, hcallee, .inr ⟨hdepth, .inr ⟨_, hvalues, .inl ⟨harity, rfl⟩⟩⟩⟩)
  case applied hcallee hdepth hvalues harity happly =>
    exact fails_callValue.mpr
      (.inr ⟨_, hcallee, .inr ⟨hdepth, .inr ⟨_, hvalues, .inr ⟨harity, happly⟩⟩⟩⟩)
  case name hname => rwa [exprValue]
  case range hrange => exact fails_range.mpr hrange
  case item hdepth htarget hplace hitem =>
    exact fails_index.mpr (.inr ⟨hdepth, .inr ⟨_, htarget, .inr ⟨_, hplace, hitem⟩⟩⟩)
  case operation hdepth hleft hright hoperate =>
    exact fails_binary.mpr (.inr ⟨hdepth, .inr ⟨_, hleft, .inr ⟨_, hright, hoperate⟩⟩⟩)

/-- A moment raises a fault, or starts one that fails with it. -/
def Traced (x : Moment) (e : ExpansionFault) : Prop := x.Raises e ∨ ∃ y, x.Starts y ∧ y.Fails e

/-- A fault of what a moment starts is traced to it. -/
theorem Starts.traced (h : Starts x y) (hfails : Expansion.Fails y.activity.step y.state e) :
    x.Traced e := .inr ⟨y, h, hfails⟩

/-- A statement that fails. -/
theorem statement_traced {s : Statement} {first : Nat} {looped : Bool} {m : Expansion}
    (h : Expansion.Fails (run s first looped) m e) : Traced ⟨.statement s first looped, m⟩ e := by
  cases s with
  | assign target value p =>
    obtain hvalue | ⟨v, hvalue, hassign⟩ := fails_assignment.mp h
    · exact Starts.assigned.traced (fails_map.mpr hvalue)
    · exact .inl (.assigned hvalue hassign)
  | foreach binding source body p =>
    obtain ⟨hdepth, rfl⟩ | ⟨hdepth, hsource | ⟨v, hsource, ⟨hitems, rfl⟩ | ⟨items, hitems, hturns⟩⟩⟩
      := fails_foreach.mp h
    · exact .inl (.tooDeep rfl hdepth)
    · exact (Starts.source hdepth).traced (fails_map.mpr hsource)
    · exact .inl (.noElements hdepth hsource hitems)
    · exact (Starts.turns hdepth hsource hitems).traced (fails_map.mpr hturns)
  | call name arguments p =>
    exact Starts.called.traced (fails_map.mpr (fails_callStatement.mp h))

/-- A call that fails. -/
theorem call_traced {name : String} {arguments : List Expr} {p : Position} {m : Expansion}
    (h : Expansion.Fails (callValue name arguments p) m e) :
    Traced ⟨.call name arguments p, m⟩ e := by
  obtain hcallee | ⟨b, hcallee, ⟨hdepth, rfl⟩ | ⟨hdepth, harguments |
    ⟨vs, hvalues, ⟨harity, rfl⟩ | ⟨harity, happly⟩⟩⟩⟩ := fails_callValue.mp h
  · exact .inl (.unknown hcallee)
  · exact .inl (.callTooDeep hcallee hdepth)
  · exact (Starts.arguments hcallee hdepth).traced harguments
  · exact .inl (.wrongCount hcallee hdepth hvalues harity)
  · exact .inl (.applied hcallee hdepth hvalues harity happly)

/-- An expression that fails. -/
theorem value_traced {x : Expr} {fallback : Fallback} {m : Expansion}
    (h : Expansion.Fails (exprValue x fallback) m e) : Traced ⟨.value x fallback, m⟩ e := by
  -- By the kinds of expressions: for each, its own fault or that of a part that was reached.
  cases x with
  | number | text | tile =>
    rw [exprValue] at h
    exact absurd h (not_fails_pure _)
  | identifier name p =>
    rw [exprValue] at h
    exact .inl (.name h)
  | range first last p => exact .inl (.range (fails_range.mp h))
  | tuple elements p =>
    obtain ⟨hdepth, rfl⟩ | ⟨hdepth, helements⟩ := fails_tuple.mp h
    · exact .inl (.tooDeep rfl hdepth)
    · exact (Starts.elements hdepth).traced helements
  | call name arguments p =>
    rw [exprValue] at h
    exact Starts.call.traced (fails_map.mpr h)
  | index target place p =>
    obtain ⟨hdepth, rfl⟩ | ⟨hdepth, htarget | ⟨v, htarget, hplace | ⟨i, hplace, hitem⟩⟩⟩ :=
      fails_index.mp h
    · exact .inl (.tooDeep rfl hdepth)
    · exact (Starts.target hdepth).traced (fails_map.mpr htarget)
    · exact (Starts.place hdepth htarget).traced (fails_map.mpr hplace)
    · exact .inl (.item hdepth htarget hplace hitem)
  | binary operator left right p =>
    obtain ⟨hdepth, rfl⟩ | ⟨hdepth, hleft | ⟨v, hleft, hright | ⟨w, hright, hoperate⟩⟩⟩ :=
      fails_binary.mp h
    · exact .inl (.tooDeep rfl hdepth)
    · exact (Starts.left hdepth).traced (fails_map.mpr hleft)
    · exact (Starts.right hdepth hleft).traced (fails_map.mpr hright)
    · exact .inl (.operation hdepth hleft hright hoperate)

/-- What fails raises the fault, or starts what does. -/
theorem Fails.traced (h : x.Fails e) : x.Traced e := by
  obtain ⟨a, m⟩ := x
  -- By the kinds of activities; the expressions, the calls and the statements have their own
  -- lemmas.
  cases a with
  | values es fallback =>
    cases es with
    | nil =>
      simp only [Fails, Activity.step, exprValues] at h
      exact absurd h (not_fails_pure _)
    | cons e es =>
      obtain hvalue | ⟨v, hvalue, hvalues⟩ := fails_exprValues_cons.mp h
      · exact Starts.value.traced (fails_map.mpr hvalue)
      · exact (Starts.values hvalue).traced hvalues
  | value x fallback => exact value_traced (fails_map.mp h)
  | call name arguments p => exact call_traced (fails_map.mp h)
  | statement s first looped => exact statement_traced (fails_map.mp h)
  | block statements p =>
    obtain hrun | ⟨m', hrun, hleaf, hbuffer, hcount⟩ := fails_runBlock.mp (fails_map.mp h)
    · exact Starts.block.traced (fails_map.mpr hrun)
    · exact .inl (.variations hrun hleaf hbuffer hcount)
  | remaining statements first looped =>
    cases statements with
    | nil =>
      simp only [Fails, Activity.step, runAll, fails_map] at h
      exact absurd h (not_fails_pure _)
    | cons s statements =>
      obtain hs | ⟨m', hrun, hrest⟩ := fails_runAll_cons.mp (fails_map.mp h)
      · exact Starts.statement.traced (fails_map.mpr hs)
      · exact (Starts.remaining hrun).traced (fails_map.mpr hrest)
  | turns binding body p items =>
    cases items with
    | nil =>
      simp only [Fails, Activity.step, forValues, fails_map] at h
      exact absurd h (not_fails_pure _)
    | cons item items =>
      obtain hturn | ⟨m', hturn, hturns⟩ := fails_forValues_cons.mp (fails_map.mp h)
      · exact Starts.turn.traced (fails_map.mpr hturn)
      · exact (Starts.moreTurns hturn).traced (fails_map.mpr hturns)
  | turn binding body p item =>
    obtain hassign | ⟨m', hassign, hbody⟩ := fails_turn.mp (fails_map.mp h)
    · exact .inl (.bound hassign)
    · exact (Starts.body hassign).traced (fails_map.mpr hbody)

/-! ## Reaching -/

/-- The size of what an activity has to do, and how many elements it has to do it for. -/
noncomputable def rank (x : Moment) : Nat × Nat :=
  match x.activity with
  | .block statements _ => (sizeOf statements + 1, 0)
  | .remaining statements _ _ => (sizeOf statements, 0)
  | .statement s _ _ => (sizeOf s, 0)
  | .turns _ body _ items => (sizeOf body + 1, items.length + 2)
  | .turn _ body _ _ => (sizeOf body + 1, 1)
  | .call _ arguments _ => (sizeOf arguments + 1, 0)
  | .value e _ => (sizeOf e, 0)
  | .values es _ => (sizeOf es, 0)

/-- What a moment starts has less to do. -/
theorem Starts.rank_lt (h : Starts x y) : Prod.Lex (· < ·) (· < ·) y.rank x.rank := by
  have hposition : ∀ p : Position, 0 < sizeOf p := by
    rintro ⟨line, column⟩
    simp only [Position.mk.sizeOf_spec]
    omega
  cases h with
  | turn | moreTurns | body => exact .right _ (by simp)
  | @called _ _ p | @call _ _ p | @turns _ _ _ p =>
    have hp := hposition p
    refine .left _ _ ?_
    simp
    omega
  | _ =>
    refine .left _ _ ?_
    simp <;> omega

/-- The moments that are reached from a moment. -/
abbrev Reaches : Moment → Moment → Prop := Relation.ReflTransGen Starts

/-- A moment fails with a fault exactly if it reaches one that raises the fault. -/
theorem fails_iff_reaches : x.Fails e ↔ ∃ y, x.Reaches y ∧ y.Raises e := by
  constructor
  · -- By induction on what a moment has to do; what it starts has less to do.
    have hwf : WellFounded (fun y x : Moment => Prod.Lex (· < ·) (· < ·) y.rank x.rank) :=
      InvImage.wf rank (Prod.lex Nat.lt_wfRel Nat.lt_wfRel).wf
    intro hfails
    induction x using hwf.induction with
    | _ x ih =>
    obtain hraises | ⟨y, hstarts, hfails⟩ := hfails.traced
    · exact ⟨x, .refl, hraises⟩
    · obtain ⟨z, hreaches, hraises⟩ := ih y hstarts.rank_lt hfails
      exact ⟨z, .head hstarts hreaches, hraises⟩
  · rintro ⟨y, hreaches, hraises⟩
    induction hreaches using Relation.ReflTransGen.head_induction_on with
    | refl => exact hraises.fails
    | head hstarts _ ih => exact hstarts.fails ih

end Moment

end Expansion

end HandTemplate
