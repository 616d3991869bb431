import HandTemplate.Proofs.Expansion.Reading
import HandTemplate.Proofs.Faults.Expression

/-!
# Faults of values

The values of expressions, followed under two configurations as the rules are under two limits. The
two evaluations agree up to the point where the first of them meets a limit that the second may
relax, and a fault names one of the lexemes that the expressions are placed at. No limit decides
between two values; where one is met, there is a fault.
-/

namespace HandTemplate

/-- `c'` is no stricter than `c`. -/
structure Config.RelaxedBy (c c' : Config) : Prop where
  /-- Nesting may go as deep. -/
  depth : c.maxDepth ≤ c'.maxDepth
  /-- There may be as many items. -/
  items : c.maxItems ≤ c'.maxItems
  /-- Names that are bound to nothing may stand for themselves, if they may under `c`. -/
  atoms : c.symbolAtoms → c'.symbolAtoms

/-- No configuration is stricter than itself. -/
theorem Config.RelaxedBy.refl (c : Config) : c.RelaxedBy c :=
  ⟨Nat.le_refl _, Nat.le_refl _, id⟩

namespace ExpansionFault

/-- A fault that another configuration may remove: one that is due to a limit, or to a name that is
bound to nothing if the two configurations differ in what becomes of those. -/
def Removable (c c' : Config) (e : ExpansionFault) : Prop :=
  match e.cause with
  | .tooDeep _ | .tooMany .. => True
  | .unboundName _ => c.symbolAtoms ≠ c'.symbolAtoms
  | _ => False

/-- A fault names a lexeme: the name that it is about, or else some token at its position. -/
def Names (ts : List Lexeme) (e : ExpansionFault) : Prop :=
  match e.cause with
  | .unboundName name | .unknownBuiltin name | .wrongCount name _ _ =>
    ⟨.identifier name, e.position⟩ ∈ ts
  | _ => e.position.Among ts

/-- A fault stands where one of the lexemes does. -/
theorem Names.among {ts : List Lexeme} {e : ExpansionFault} (h : e.Names ts) :
    e.position.Among ts := by
  unfold Names at h
  split at h
  · exact ⟨_, h⟩
  · exact ⟨_, h⟩
  · exact ⟨_, h⟩
  · exact h

/-- Two computations under `c` and `c'` agree: they have the same result or the same fault, or that
of the first may be removed by the second. Every fault names a lexeme of `W`. -/
inductive Agree {α : Type} (W : List Lexeme) (c c' : Config) :
    Except ExpansionFault α → Except ExpansionFault α → Prop where
  | ok (a : α) : Agree W c c' (.ok a) (.ok a)
  | error {e : ExpansionFault} (hnames : e.Names W) : Agree W c c' (.error e) (.error e)
  | removable {e : ExpansionFault} (hnames : e.Names W) (he : e.Removable c c')
      (r : Except ExpansionFault α) : Agree W c c' (.error e) r

end ExpansionFault

open ExpansionFault (Agree)

section
variable {α β : Type} {W : List Lexeme} {c c' : Config} {p : Position}

/-- Computations that agree go on to agree if what follows them does. -/
theorem ExpansionFault.Agree.bind {r r' : Except ExpansionFault α} (h : Agree W c c' r r')
    {f f' : α → Except ExpansionFault β} (hf : ∀ a, Agree W c c' (f a) (f' a)) :
    Agree W c c' (r >>= f) (r' >>= f') := by
  cases h with
  | ok a => exact hf a
  | error hnames => exact .error hnames
  | removable hnames he => exact .removable hnames he _

/-! ## Values and builtins -/

/-- A count of items that is within the limit is within one that is no lower. -/
theorem checkCount_agree (hrelaxed : c.RelaxedBy c') (hp : p.Among W) (what : String)
    (found : Nat) : Agree W c c' (checkCount what found c p) (checkCount what found c' p) := by
  have hitems := hrelaxed.items
  unfold checkCount
  split
  · exact .removable (e := ⟨.tooMany what found c.maxItems, p⟩) hp trivial _
  · rw [if_neg (by omega)]
    exact .ok ()

variable (hp : p.Among W)
include hp

namespace Value

/-- A value is an integer, or is refused as one, under every configuration. -/
theorem toInteger_agree (v : Value) : Agree W c c' (v.toInteger p) (v.toInteger p) := by
  cases v with
  | integer => exact .ok _
  | _ => exact .error hp

/-- A value is a list, or is refused as one, under every configuration. -/
theorem toItems_agree (v : Value) : Agree W c c' (v.toItems p) (v.toItems p) := by
  cases v with
  | list => exact .ok _
  | _ => exact .error hp

/-- A value is a tile code, or is refused as one, under every configuration. -/
theorem toTileCode_agree (v : Value) : Agree W c c' (v.toTileCode p) (v.toTileCode p) := by
  cases v with
  | integer | real | text | symbol => exact .ok _
  | _ => exact .error hp

/-- Some values are tile codes, or the first that is not is refused, under every configuration. -/
theorem toTileCodes_agree (vs : List Value) :
    Agree W c c' (vs.mapM (·.toTileCode p)) (vs.mapM (·.toTileCode p)) := by
  induction vs with
  | nil => exact .ok _
  | cons v vs ih =>
    rw [List.mapM_cons]
    exact (toTileCode_agree hp v).bind fun _ => ih.bind fun _ => .ok _

end Value

namespace Builtin

/-- An interval has the same integers wherever there may be as many. -/
theorem interval_agree (hrelaxed : c.RelaxedBy c') (first last : Int64) :
    Agree W c c' (interval first last c p) (interval first last c' p) :=
  (checkCount_agree hrelaxed hp _ _).bind fun _ => .ok _

/-- The copies of a group are the same under every configuration. -/
theorem copiesOf_agree (shape : GroupShape) (arguments : List Value) :
    Agree W c c' (copiesOf shape p arguments) (copiesOf shape p arguments) :=
  (Value.toTileCodes_agree hp arguments).bind fun _ => .ok _

/-- A sequence has the same tiles wherever there may be as many. -/
theorem sequenceOf_agree (hrelaxed : c.RelaxedBy c') (start suit length : Value) :
    Agree W c c' (sequenceOf c p start suit length) (sequenceOf c' p start suit length) := by
  unfold sequenceOf
  refine (Value.toInteger_agree hp start).bind fun start => ?_
  refine (Value.toTileCode_agree hp suit).bind fun suit => ?_
  refine (Value.toInteger_agree hp length).bind fun count => ?_
  dsimp only
  split
  · exact .error (e := ⟨.wrongType (.negativeLength count), p⟩) hp
  refine (checkCount_agree hrelaxed hp _ _).bind fun _ => ?_
  split
  · exact .ok _
  · exact .error hp

/-- A complement is the same under every configuration. -/
theorem complementOf_agree (target list : Value) :
    Agree W c c' (complementOf p target list) (complementOf p target list) :=
  (Value.toItems_agree hp list).bind fun _ => .ok _

/-- The permutations of a list are the same wherever there may be as many. -/
theorem permutationsOf_agree (hrelaxed : c.RelaxedBy c') (list : Value) :
    Agree W c c' (permutationsOf c p list) (permutationsOf c' p list) :=
  (Value.toItems_agree hp list).bind fun _ =>
    (checkCount_agree hrelaxed hp _ _).bind fun _ => .ok _

/-- A range has the same integers wherever there may be as many. -/
theorem rangeOf_agree (hrelaxed : c.RelaxedBy c') (first last : Value) :
    Agree W c c' (rangeOf c p first last) (rangeOf c' p first last) :=
  (Value.toInteger_agree hp first).bind fun first =>
    (Value.toInteger_agree hp last).bind fun last => interval_agree hp hrelaxed first last

/-- Builtins agree on as many arguments as they accept. -/
theorem apply_agree (hrelaxed : c.RelaxedBy c') (b : Builtin) {arguments : List Value}
    (harity : b.arity.accepts arguments.length) :
    Agree W c c' (b.apply c p arguments) (b.apply c' p arguments) := by
  -- A builtin with a fixed number of parameters is called with that many arguments.
  have hcount {n : Nat} (h : Arity.accepts (.exactly n) arguments.length) : arguments.length = n :=
    of_decide_eq_true h
  cases b with
  | complement =>
    match arguments, hcount harity with
    | [target, list], _ => exact complementOf_agree hp target list
  | permutations =>
    match arguments, hcount harity with
    | [list], _ => exact permutationsOf_agree hp hrelaxed list
  | range =>
    match arguments, hcount harity with
    | [first, last], _ => exact rangeOf_agree hp hrelaxed first last
  | group shape =>
    cases shape with
    | sequence =>
      match arguments, hcount harity with
      | [start, suit, length], _ => exact sequenceOf_agree hp hrelaxed start suit length
    | _ => exact copiesOf_agree hp _ arguments

end Builtin

end

namespace Expansion

variable {α β : Type} {W : List Lexeme} {c c' : Config} {p : Position}

/-- The item at a place is the same under every configuration. -/
theorem itemAt_agree (hp : p.Among W) (target place : Value) :
    Agree W c c' (itemAt p target place) (itemAt p target place) := by
  unfold itemAt
  refine (Value.toInteger_agree hp place).bind fun place => ?_
  refine (Value.toItems_agree hp target).bind fun items => ?_
  have hnone : (⟨.noSuchItem items.length place, p⟩ : ExpansionFault).Names W := hp
  dsimp only
  split
  · exact .error hnone
  split
  · exact .ok _
  · exact .error hnone

/-- An operator gives the same for two values wherever there may be as many items. -/
theorem operate_agree (hrelaxed : c.RelaxedBy c') (hp : p.Among W) (operator : Operator)
    (left right : Value) :
    Agree W c c' (operate c p operator left right) (operate c' p operator left right) := by
  unfold operate
  dsimp only
  split
  · split
    · exact .ok _
    · exact .error (e := ⟨.overflow, p⟩) hp
  · split
    · exact .ok _
    · exact .error (e := ⟨.overflow, p⟩) hp
  · exact (checkCount_agree hrelaxed hp _ _).bind fun _ => .ok _
  · exact .error (e := ⟨.wrongType _, p⟩) hp

/-! ## Steps -/

/-- A state under another configuration. -/
def under (m : Expansion) (c : Config) : Expansion := { m with config := c }

/-- No configuration changes what a name is bound to. -/
theorem under_valueOf? (m : Expansion) (c : Config) (name : String) :
    (m.under c).valueOf? name = m.valueOf? name := rfl

/-- A change of the depth has nothing to do with the configuration. -/
theorem under_deeper (m : Expansion) (c : Config) :
    { m.under c with depth := (m.under c).depth + 1 } = under { m with depth := m.depth + 1 } c :=
  rfl

/-- Two runs of a step, the first under `c` and the second under `c'`, end alike: in the same state
but for the configuration, with the same result or the same fault; or the fault of the first may be
removed by the second. Every fault names a lexeme of `W`. -/
inductive EndAlike (W : List Lexeme) (c c' : Config) :
    EStateM.Result ExpansionFault Expansion α → EStateM.Result ExpansionFault Expansion α →
      Prop where
  | ok (a : α) (m : Expansion) : EndAlike W c c' (.ok a (m.under c)) (.ok a (m.under c'))
  | error {e : ExpansionFault} (hnames : e.Names W) (m : Expansion) :
      EndAlike W c c' (.error e (m.under c)) (.error e (m.under c'))
  | removable {e : ExpansionFault} (hnames : e.Names W) (he : e.Removable c c') (m : Expansion)
      (r : EStateM.Result ExpansionFault Expansion α) :
      EndAlike W c c' (.error e (m.under c)) r

/-- Two steps agree if they end alike from every state. -/
def Agrees (W : List Lexeme) (c c' : Config) (step step' : Step α) : Prop :=
  ∀ m : Expansion, EndAlike W c c' (step (m.under c)) (step' (m.under c'))

namespace Agrees

variable {step step' : Step α}

/-- A value that is given without a step is given under both configurations. -/
theorem pure (a : α) : Agrees W c c' (pure a : Step α) (pure a) := fun m => .ok a m

/-- A fault that names a lexeme is raised under both configurations. -/
theorem throw {e : ExpansionFault} (hnames : e.Names W) :
    Agrees W c c' (throw e : Step α) (throw e) := fun m => .error hnames m

/-- Steps that need no state agree if what they compute does. -/
theorem ofExcept {r r' : Except ExpansionFault α} (h : Agree W c c' r r') :
    Agrees W c c' (ofExcept r) (ofExcept r') := by
  intro m
  cases h with
  | ok a => exact .ok a m
  | error hnames => exact .error hnames m
  | removable hnames he => exact .removable hnames he m _

/-- Steps that agree go on to agree if what follows them does. -/
theorem bind (h : Agrees W c c' step step') {next next' : α → Step β}
    (hnext : ∀ a, Agrees W c c' (next a) (next' a)) :
    Agrees W c c' (step >>= next) (step' >>= next') := by
  intro m
  have hstep := h m
  rw [bind_apply, bind_apply]
  generalize step (m.under c) = r at hstep
  generalize step' (m.under c') = r' at hstep
  cases hstep with
  | ok a n => exact hnext a n
  | error hnames n => exact .error hnames n
  | removable hnames he n => exact .removable hnames he n _

/-- Steps that look at the state first agree if they do for the same state under both
configurations. -/
theorem get {next next' : Expansion → Step α}
    (hnext : ∀ m : Expansion, Agrees W c c' (next (m.under c)) (next' (m.under c'))) :
    Agrees W c c' (get >>= next) (get >>= next') := fun m => hnext m m

/-- A change of the state that has nothing to do with the configuration. -/
theorem modify {f : Expansion → Expansion} (hf : ∀ m c, f (under m c) = (f m).under c) :
    Agrees W c c' (modify f) (modify f) := by
  intro m
  change EndAlike W c c' (.ok () (f (m.under c))) (.ok () (f (m.under c')))
  rw [hf, hf]
  exact .ok () (f m)

/-- One level deeper, steps still agree, if the second configuration lets them go as deep. -/
theorem nest (hrelaxed : c.RelaxedBy c') (hp : p.Among W) (h : Agrees W c c' step step') :
    Agrees W c c' (nest p step) (nest p step') := by
  intro m
  -- Where the first configuration leaves no level, the second one may have one.
  have hdepth := hrelaxed.depth
  unfold Expansion.nest
  change EndAlike W c c' (if c.maxDepth ≤ m.depth then _ else _)
    (if c'.maxDepth ≤ m.depth then _ else _)
  split
  · exact .removable (e := ⟨.tooDeep c.maxDepth, p⟩) hp trivial m _
  rw [if_neg (by omega)]
  have hinner := h { m with depth := m.depth + 1 }
  -- The level is left again, whether the steps succeed or fail.
  rw [under_deeper, under_deeper]
  generalize step (under { m with depth := m.depth + 1 } c) = r at hinner
  generalize step' (under { m with depth := m.depth + 1 } c') = r' at hinner
  cases hinner with
  | ok a n => exact .ok a { n with depth := n.depth - 1 }
  | error hnames n => exact .error hnames { n with depth := n.depth - 1 }
  | removable hnames he n => exact .removable hnames he { n with depth := n.depth - 1 } _

end Agrees

/-- What a name stands for is the same where the second configuration takes for an atom whatever the
first one does. -/
theorem nameValue_agrees (hrelaxed : c.RelaxedBy c') {name : String}
    (hname : ⟨.identifier name, p⟩ ∈ W) (fallback : Fallback) :
    Agrees W c c' (nameValue name p fallback) (nameValue name p fallback) := by
  have hunbound : (⟨.unboundName name, p⟩ : ExpansionFault).Names W := hname
  refine .get fun m => ?_
  simp only [under_valueOf?]
  cases m.valueOf? name with
  | some value => exact .pure value
  | none =>
    -- A name that is bound to nothing decides between the configurations only if they treat it
    -- differently, and then the first one refuses it.
    change Agrees W c c' (if fallback = .symbol && c.symbolAtoms then _ else _)
      (if fallback = .symbol && c'.symbolAtoms then _ else _)
    rcases eq_or_ne c.symbolAtoms c'.symbolAtoms with hatoms | hatoms
    · rw [hatoms]
      split
      · exact .pure _
      · exact .throw hunbound
    · have hno : c.symbolAtoms = false := by
        by_contra hsome
        rw [Bool.not_eq_false] at hsome
        exact hatoms (hsome.trans (hrelaxed.atoms hsome).symm)
      simp only [hno, Bool.and_false, Bool.false_eq_true, if_false]
      exact fun n => .removable hunbound hatoms n _

/-- The builtin that a name calls is the same under every configuration. -/
theorem callee_agrees {name : String} (hname : ⟨.identifier name, p⟩ ∈ W) :
    Agrees W c c' (callee name p) (callee name p) := by
  have hunknown : (⟨.unknownBuiltin name, p⟩ : ExpansionFault).Names W := hname
  refine .get fun m => ?_
  simp only [under_valueOf?]
  split
  · split
    · exact .pure _
    · exact .throw hunknown
  · exact .throw hunknown

/-- Calls agree if their arguments do. -/
theorem callWith_agrees (hrelaxed : c.RelaxedBy c') {name : String}
    (hname : ⟨.identifier name, p⟩ ∈ W) {arguments : Fallback → Step (List Value)}
    (harguments : ∀ fallback, Agrees W c c' (arguments fallback) (arguments fallback)) :
    Agrees W c c' (callWith name p arguments) (callWith name p arguments) := by
  refine (callee_agrees hname).bind fun builtin => .nest hrelaxed ⟨_, hname⟩ ?_
  refine (harguments builtin.fallback).bind fun values => ?_
  split
  next harity =>
    exact .get fun m => .ofExcept (Builtin.apply_agree ⟨_, hname⟩ hrelaxed builtin harity)
  · exact .throw (e := ⟨.wrongCount name builtin.arity values.length, p⟩) hname

mutual

/-- The values of an expression agree. -/
theorem exprValue_agrees (hrelaxed : c.RelaxedBy c') : {e : Expr} → (fallback : Fallback) →
    e.Placed W → Agrees W c c' (exprValue e fallback) (exprValue e fallback)
  | .number .., _, _ | .text .., _, _ | .tile .., _, _ => .pure _
  | .identifier .., fallback, .identifier hp => nameValue_agrees hrelaxed hp fallback
  | .range .., _, .range hp =>
    .get fun _ => .ofExcept (Builtin.interval_agree ⟨_, hp⟩ hrelaxed _ _)
  | .tuple .., _, .tuple hp helements =>
    .nest hrelaxed hp ((exprValues_agrees hrelaxed .symbol helements).bind fun _ => .pure _)
  | .call .., _, .call hp harguments =>
    callWith_agrees hrelaxed hp fun fallback => exprValues_agrees hrelaxed fallback harguments
  | .index .., _, .index hp htarget hplace =>
    .nest hrelaxed hp ((exprValue_agrees hrelaxed .nothing htarget).bind fun target =>
      (exprValue_agrees hrelaxed .nothing hplace).bind fun place =>
        .ofExcept (itemAt_agree hp target place))
  | .binary operator .., _, .binary hp hleft hright =>
    .nest hrelaxed hp ((exprValue_agrees hrelaxed .nothing hleft).bind fun left =>
      (exprValue_agrees hrelaxed .nothing hright).bind fun right =>
        .get fun _ => .ofExcept (operate_agree hrelaxed hp operator left right))

/-- The values of several expressions agree. -/
theorem exprValues_agrees (hrelaxed : c.RelaxedBy c') : {es : List Expr} → (fallback : Fallback) →
    (∀ e ∈ es, e.Placed W) → Agrees W c c' (exprValues es fallback) (exprValues es fallback)
  | [], _, _ => .pure _
  | _ :: _, fallback, hes =>
    (exprValue_agrees hrelaxed fallback (List.forall_mem_cons.1 hes).1).bind fun _ =>
      (exprValues_agrees hrelaxed fallback (List.forall_mem_cons.1 hes).2).bind fun _ => .pure _

end

end Expansion

end HandTemplate
