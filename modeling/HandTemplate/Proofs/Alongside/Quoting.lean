import HandTemplate.Proofs.Alongside.Pairing
import HandTemplate.Proofs.Expansion.Limit
import HandTemplate.Proofs.Reach.Compilation

/-!
# Expansions of a template and of the same template with quoted names

Two expansions run side by side, of a template and of the same one in which some names are quoted,
if every name that is looked up on the way ends side by side with what it is in the other template.
Main statement: `Program.expand_alongside`.
-/

namespace HandTemplate

namespace Expansion

namespace Pairing

/-- The names of a template that mentions some names, and whose expansion begins with a moment, end
side by side with what they are when some of them are quoted. -/
structure Resolves (R : Pairing) (start : Moment) (atoms : String → Bool)
    (Mentioned : String → Prop) : Prop where
  /-- A name as an expression. -/
  name : ∀ {name : String} {p : Position} {fallback : Fallback} {m m' : Expansion},
    Mentioned name → start.Reaches ⟨.value (.identifier name p) fallback, m⟩ → R.Beside m m' →
      R.Ends (exprValue (.identifier name p) fallback m)
        (exprValue ((Expr.identifier name p).quoting atoms) fallback m')
  /-- The name of a call. -/
  callee : ∀ {name : String} {p : Position} {m m' : Expansion},
    Mentioned name → R.Beside m m' → R.Ends (callee name p m) (callee name p m')
  /-- Messages quote expressions, so these must be the same where faults matter. -/
  source : R.Excused ∨ atoms = fun _ => false

variable {R : Pairing} {start : Moment} {atoms : String → Bool} {Mentioned : String → Prop}
  {m m' : Expansion}

/-! ## Names -/

/-- A name has the same value in both states if it has in all scopes that are alike. -/
theorem Beside.valueOf?_eq (hm : R.Beside m m') {name : String}
    (hname : ∀ scope scope', R.Alike scope scope' → scope'.get? name = scope.get? name) :
    m'.valueOf? name = m.valueOf? name := by
  have hscopes := hm.scopes
  unfold Expansion.valueOf? lookup
  generalize m.scopes = scopes, m'.scopes = scopes' at hscopes ⊢
  induction hscopes with
  | nil => rfl
  | cons halike _ ih => rw [List.findSome?_cons, List.findSome?_cons, ih, hname _ _ halike]

/-- A name of the same value is the same expression, where it has to be bound or may stand for
itself in both expansions. -/
theorem Ends.nameValue {name : String} {p : Position} {fallback : Fallback}
    (hvalue : m'.valueOf? name = m.valueOf? name)
    (hsymbol : (m.valueOf? name).isSome ∨ R.symbolAtoms = R.config.symbolAtoms)
    (hm : R.Beside m m') :
    R.Ends (nameValue name p fallback m) (nameValue name p fallback m') := by
  unfold Expansion.nameValue
  rw [bind_apply, bind_apply, get_apply, get_apply]
  dsimp only
  rw [hvalue]
  cases hbound : m.valueOf? name with
  | some v => exact .ok hm
  | none =>
    -- A name that is bound to nothing is treated alike by both: they differ in this at most where
    -- the name is bound.
    have hatoms : m'.config.symbolAtoms = m.config.symbolAtoms := by
      rw [hm.config, hm.config']
      exact hsymbol.resolve_left (by simp [hbound])
    rw [hatoms]
    dsimp only
    split
    · exact .ok hm
    · exact .error

/-- A name of the same value calls the same builtin. -/
theorem Ends.callee {name : String} {p : Position} (hvalue : m'.valueOf? name = m.valueOf? name)
    (hm : R.Beside m m') : R.Ends (callee name p m) (callee name p m') := by
  unfold Expansion.callee
  rw [bind_apply, bind_apply, get_apply, get_apply]
  dsimp only
  rw [hvalue]
  cases m.valueOf? name with
  | none => exact .error
  | some v =>
    -- Only a value that names a builtin can be called.
    cases v with
    | builtin bound =>
      dsimp only
      cases Builtin.ofName? bound with
      | some b => exact .ok hm
      | none => exact .error
    | _ => exact .error

/-! ## Expressions -/

/-- A computation that looks at the limits only ends side by side. -/
theorem Ends.limited {α : Type} (compute : Config → Except ExpansionFault α)
    (hsame : compute R.config' = compute R.config) (h : R.Beside m m') :
    R.Ends ((do Expansion.ofExcept (compute (← get).config) : Step α) m)
      ((do Expansion.ofExcept (compute (← get).config) : Step α) m') := by
  rw [bind_apply, bind_apply, get_apply, get_apply]
  dsimp only
  rw [h.config, h.config', hsame]
  exact .ofExcept _ h

/-- Calls end side by side if their names and their arguments do. -/
theorem callValue_ends (h : R.Resolves start atoms Mentioned) {name : String} {p : Position}
    {arguments : List Expr} (hname : Mentioned name) (hm : R.Beside m m')
    (harguments : ∀ b, Expansion.callee name p m = .ok b m → m.depth < m.config.maxDepth →
      ∀ {n' : Expansion}, R.Beside m.deeper n' →
        R.Ends (exprValues arguments b.fallback m.deeper)
          (exprValues (Expr.quotingOf atoms arguments) b.fallback n')) :
    R.Ends (callValue name arguments p m)
      (callValue name (Expr.quotingOf atoms arguments) p m') := by
  -- First the name, then the arguments one level deeper, and then the builtin under the limits.
  refine (h.callee hname hm).bind_readOnly (callee_readOnly name p) fun b n' hcallee hn' => ?_
  refine .nest hn' fun hdepth => ?_
  refine (harguments b hcallee hdepth hn'.deeper).bind fun vs n n'' _ hn => ?_
  split
  · exact .limited (b.apply · p vs) rfl hn
  · exact .throw _

mutual

/-- Expressions end side by side. -/
theorem exprValue_ends (h : R.Resolves start atoms Mentioned) : (e : Expr) →
    (∀ x ∈ e.names, Mentioned x) → ∀ {fallback : Fallback} {m m' : Expansion},
      start.Reaches ⟨.value e fallback, m⟩ → R.Beside m m' →
        R.Ends (exprValue e fallback m) (exprValue (e.quoting atoms) fallback m')
  | .number _ _, _, _, _, _, _, hm => .ok hm
  | .text _ _, _, _, _, _, _, hm => .ok hm
  | .tile _ _, _, _, _, _, _, hm => .ok hm
  | .identifier name _, hnames, _, _, _, hreach, hm =>
    h.name (hnames name (List.mem_singleton_self name)) hreach hm
  | .range first last p, _, _, _, _, _, hm => .limited (Builtin.interval first last · p) rfl hm
  | .tuple elements _, hnames, _, _, _, hreach, hm =>
    .nest hm fun hdepth =>
      (exprValues_ends h elements hnames (hreach.tail (.elements hdepth)) hm.deeper).bind
        fun _ _ _ _ hn => .ok hn
  | .call name arguments p, hnames, _, _, _, hreach, hm => by
    obtain ⟨hname, harguments⟩ := List.forall_mem_cons.mp hnames
    have hcall := hreach.tail .call
    exact callValue_ends h hname hm fun b hcallee hdepth _ hn' =>
      exprValues_ends h arguments harguments (hcall.tail (.arguments hcallee hdepth)) hn'
  | .index target place p, hnames, _, _, _, hreach, hm => by
    -- Both parts are evaluated one level deeper. As the first one only reads, the moment that comes
    -- to the second one is still the one that the first one started from.
    obtain ⟨htarget, hplace⟩ := List.forall_mem_append.mp hnames
    refine .nest hm fun hdepth => ?_
    refine (exprValue_ends h target htarget (hreach.tail (.target hdepth)) hm.deeper).bind_readOnly
      (exprValue_readOnly target .nothing) fun v _ hv hn => ?_
    refine (exprValue_ends h place hplace (hreach.tail (.place hdepth hv)) hn).bind
      fun i _ _ _ hn => ?_
    exact .ofExcept (itemAt p v i) hn
  | .binary operator left right p, hnames, _, _, _, hreach, hm => by
    obtain ⟨hleft, hright⟩ := List.forall_mem_append.mp hnames
    refine .nest hm fun hdepth => ?_
    refine (exprValue_ends h left hleft (hreach.tail (.left hdepth)) hm.deeper).bind_readOnly
      (exprValue_readOnly left .nothing) fun v _ hv hn => ?_
    refine (exprValue_ends h right hright (hreach.tail (.right hdepth hv)) hn).bind
      fun w _ _ _ hn => ?_
    exact .limited (operate · p operator v w) rfl hn

/-- So do some expressions one after the other. -/
theorem exprValues_ends (h : R.Resolves start atoms Mentioned) : (es : List Expr) →
    (∀ x ∈ Expr.namesOf es, Mentioned x) → ∀ {fallback : Fallback} {m m' : Expansion},
      start.Reaches ⟨.values es fallback, m⟩ → R.Beside m m' →
        R.Ends (exprValues es fallback m) (exprValues (Expr.quotingOf atoms es) fallback m')
  | [], _, _, _, _, _, hm => .ok hm
  | e :: es, hnames, _, _, _, hreach, hm => by
    obtain ⟨he, hes⟩ := List.forall_mem_append.mp hnames
    refine (exprValue_ends h e he (hreach.tail .value) hm).bind_readOnly
      (exprValue_readOnly e _) fun v _ hv hn => ?_
    refine (exprValues_ends h es hes (hreach.tail (.values hv)) hn).bind fun vs _ _ _ hn => ?_
    exact .ok hn

end

/-! ## Statements -/

/-- The statements of a block end side by side whenever the first expansion comes to them. -/
def StatementsEnd (R : Pairing) (start : Moment) (atoms : String → Bool)
    (statements : List Statement) : Prop :=
  ∀ {first : Nat} {m m' : Expansion}, start.Reaches ⟨.remaining statements first false, m⟩ →
    R.Beside m m' → R.Ends (runAll statements first false m)
      (runAll (Statement.quotingOf atoms statements) first false m')

/-- Blocks end side by side if their statements do. -/
theorem runBlock_ends {statements : List Statement} {p : Position}
    (hreach : start.Reaches ⟨.block statements p, m⟩) (hm : R.Beside m m')
    (hrun : R.StatementsEnd start atoms statements) :
    R.Ends (runBlock statements p m) (runBlock (Statement.quotingOf atoms statements) p m') :=
  .block hm (Statement.any_quotingOf_isLoop ..) (Statement.getLast?_quotingOf_position ..)
    (hrun (hreach.tail .block) hm)

/-- The turns of two loops end side by side if their bodies do. -/
theorem turns_ends {binding : Binding} {body : List Statement} {p : Position} {items : List Value}
    (hnames : ∀ x ∈ binding.names, R.Bindable x)
    (hreach : start.Reaches ⟨.turns binding body p items, m⟩) (hm : R.Beside m m')
    (hbody : R.StatementsEnd start atoms body) :
    R.Ends (forValues (turn binding body p) items m)
      (forValues (turn binding (Statement.quotingOf atoms body) p) items m') := by
  -- By induction on the items: each turn binds its item in a scope of its own and runs the body
  -- there.
  induction items generalizing m m' with
  | nil => exact .ok hm
  | cons item items ih =>
    refine Ends.seq (.inScope ?_) fun n n' hturn hn => ih (hreach.tail (.moreTurns hturn)) hn
    refine (Ends.assign hnames item p hm.openScope).seq fun n n' hassign hn => ?_
    exact runBlock_ends ((hreach.tail .turn).tail (.body hassign)) hn hbody

/-- Loops end side by side if their sources and bodies do. -/
theorem foreach_ends (h : R.Resolves start atoms Mentioned) {binding : Binding} {source : Expr}
    {body : List Statement} {p : Position} {first : Nat} {looped : Bool}
    (hsource : ∀ x ∈ source.names, Mentioned x) (hnames : ∀ x ∈ binding.names, R.Bindable x)
    (hreach : start.Reaches ⟨.statement (.foreach binding source body p) first looped, m⟩)
    (hm : R.Beside m m')
    (hbody : R.StatementsEnd start atoms body) :
    R.Ends (run (.foreach binding source body p) first looped m)
      (run ((Statement.foreach binding source body p).quoting atoms) first looped m') := by
  change R.Ends (nest p (forEach source (turn binding body p)) m)
    (nest p (forEach (source.quoting atoms)
      (turn binding (Statement.quotingOf atoms body) p)) m')
  rw [forEach_eq, forEach_eq]
  refine .nest hm fun hdepth => ?_
  refine (exprValue_ends h source hsource (hreach.tail (.source hdepth)) hm.deeper).bind_readOnly
    (exprValue_readOnly source .nothing) fun v n' hv hn => ?_
  -- Over the same elements the turns end side by side. What is no list is refused with its kind,
  -- which quoting may have changed.
  cases hitems : v.elements? with
  | some items => exact turns_ends hnames (hreach.tail (.turns hdepth hv hitems)) hn hbody
  | none =>
    rcases h.source with hexcused | hatoms
    · exact .excused hexcused
    · rw [hatoms, Expr.quoting_none]
      exact .error

mutual

/-- Statements end side by side. -/
theorem run_ends (h : R.Resolves start atoms Mentioned) : (s : Statement) →
    (∀ x ∈ s.mentioned, Mentioned x) → (∀ x ∈ s.bound, R.Bindable x) →
      ∀ {first : Nat} {looped : Bool} {m m' : Expansion},
        start.Reaches ⟨.statement s first looped, m⟩ → R.Beside m m' →
          R.Ends (run s first looped m) (run (s.quoting atoms) first looped m')
  -- By recursion on the statement and its body, along what the first expansion comes to.
  | .assign target value p, hnames, hbound, _, _, _, _, hreach, hm =>
    (exprValue_ends h value hnames (hreach.tail .assigned) hm).bind
      fun v _ _ _ hn => .assign hbound v p hn
  | .foreach _ source body _, hnames, hbound, _, _, _, _, hreach, hm => by
    obtain ⟨hsource, hmentioned⟩ := List.forall_mem_append.mp hnames
    obtain ⟨hbinding, hbody⟩ := List.forall_mem_append.mp hbound
    exact foreach_ends h hsource hbinding hreach hm
      fun hreach hm => runAll_ends h body hmentioned hbody hreach hm
  | .call name arguments p, hnames, _, first, looped, _, _, hreach, hm => by
    obtain ⟨hname, harguments⟩ := List.forall_mem_cons.mp hnames
    have hcall := hreach.tail .called
    refine (callValue_ends h hname hm fun b hcallee hdepth _ hn' => exprValues_ends h arguments
      harguments (hcall.tail (.arguments hcallee hdepth)) hn').bind fun v _ _ _ hn => ?_
    -- Only a group adds tiles, and it adds the same ones in both.
    cases v with
    | group g => exact .addTiles g.tiles first looped hn
    | _ => exact .ok hn

/-- So do the statements of a block. -/
theorem runAll_ends (h : R.Resolves start atoms Mentioned) : (statements : List Statement) →
    (∀ x ∈ Statement.mentionedOf statements, Mentioned x) →
      (∀ x ∈ Statement.boundOf statements, R.Bindable x) →
        ∀ {first : Nat} {looped : Bool} {m m' : Expansion},
          start.Reaches ⟨.remaining statements first looped, m⟩ → R.Beside m m' →
            R.Ends (runAll statements first looped m)
              (runAll (Statement.quotingOf atoms statements) first looped m')
  | [], _, _, _, _, _, _, _, hm => .ok hm
  | s :: statements, hnames, hbound, _, _, _, _, hreach, hm => by
    obtain ⟨hs, hstatements⟩ := List.forall_mem_append.mp hnames
    obtain ⟨hsbound, hstatementsbound⟩ := List.forall_mem_append.mp hbound
    rw [runAll, Statement.quotingOf, runAll, Statement.quoting_isLoop]
    refine (run_ends h s hs hsbound (hreach.tail .statement) hm).seq fun n n' hrun hn => ?_
    exact runAll_ends h statements hstatements hstatementsbound (hreach.tail (.remaining hrun)) hn

end

end Pairing

end Expansion

/-! ## Programs -/

namespace Program

open Expansion

/-- Every variation of a program is under the name and description of the program. -/
theorem map_titled {program : Program} {config : Config} {vs : List Variation}
    (h : program.expand config = .ok vs) : vs.map (fun v => program.titled v.tiles) = vs := by
  obtain ⟨hs, -, rfl⟩ := hands_of_expand h
  rw [List.map_map]
  rfl

/-- If the names of a program end side by side with what they are in a second program, which has the
same body with some names quoted, the second program gives the same tiles as the first one, each
variation under its own name and description, and fails as the first one does. -/
theorem expand_alongside {R : Pairing} {atoms : String → Bool} {program program' : Program}
    (hresolves : R.Resolves (program.first R.config) atoms
      (· ∈ Statement.mentionedOf program.body))
    (hbound : ∀ x ∈ Statement.boundOf program.body, R.Bindable x)
    (hscope : R.Alike (outermostScope program.metadata) (outermostScope program'.metadata))
    (hbody : program'.body = Statement.quotingOf atoms program.body) :
    (∀ vs, program.expand R.config = .ok vs →
      program'.expand R.config' = .ok (vs.map fun v => program'.titled v.tiles)) ∧
    ∀ e, program.expand R.config = .error e → R.Excused ∨ program'.expand R.config' = .error e := by
  -- The expansions begin side by side, and their blocks end so.
  have hopening : R.Beside (program.opening R.config) (program'.opening R.config') :=
    ⟨rfl, rfl, rfl, .cons hscope .nil, rfl, Array.map_empty.symm⟩
  have hends : R.Ends (runBlock program.body .start (program.opening R.config))
      (runBlock program'.body .start (program'.opening R.config')) := by
    rw [hbody]
    exact Pairing.runBlock_ends .refl hopening fun hreach hm =>
      Pairing.runAll_ends hresolves program.body (fun _ hx => hx) hbound hreach hm
  rw [expand_eq, expand_eq]
  generalize runBlock program.body .start (program.opening R.config) = result at hends ⊢
  generalize hresult' : runBlock program'.body .start (program'.opening R.config') = result'
    at hends ⊢
  cases hends with
  | @ok _ m m' hbeside =>
    -- The second state has the name and description of the second program.
    have hretitle : m'.retitle = fun v => program'.titled v.tiles := by
      obtain ⟨e, -, -, rfl⟩ := runBlock_opening.mp hresult'
      rfl
    refine ⟨fun vs h => ?_, nofun⟩
    cases h
    -- The tiles of the variations are the same.
    dsimp only
    rw [hbeside.variations, hretitle, Array.toList_map]
  | error => exact ⟨nofun, fun e h => .inr h⟩
  | excused hexcused => exact ⟨nofun, fun _ _ => .inl hexcused⟩

end Program

end HandTemplate
