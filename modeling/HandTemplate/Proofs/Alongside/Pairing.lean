import HandTemplate.Proofs.Alongside.Names
import HandTemplate.Proofs.Reach.Moment

/-!
# Two expansions side by side

Two expansions run side by side if their scopes stay alike, in whatever sense, while all else stays
the same: the depth, the tiles under construction and the tiles of the finished variations. The
rules say of each way of putting steps together that the expansions end side by side if the parts
do. What is alike is a parameter, and so is whether the second expansion matters where the first one
has failed.
-/

namespace HandTemplate

namespace Expansion

/-- What two expansions have to keep that run side by side. -/
structure Pairing where
  /-- The limits of the first expansion, and how it treats names that are bound to nothing. -/
  config : Config
  /-- How the second expansion, whose limits are the same, treats such names. -/
  symbolAtoms : Bool
  /-- How a scope of the second expansion stands to that of the first one. -/
  Alike : Scope → Scope → Prop
  /-- The names that may be bound. -/
  Bindable : String → Prop
  /-- Whether it is of no interest what becomes of the second expansion if the first one fails. -/
  Excused : Prop
  /-- Empty scopes are alike. -/
  empty : Alike .empty .empty
  /-- Scopes stay alike when a name is bound to a value in both. -/
  insert : ∀ {scope scope' : Scope} {name : String} (value : Value), Bindable name →
    Alike scope scope' → Alike (scope.insert name value) (scope'.insert name value)

/-- A variation under the name and description that variations get in a state. -/
def retitle (m : Expansion) (v : Variation) : Variation := ⟨v.tiles, m.name, m.description⟩

namespace Pairing

/-- The configuration of the second expansion. -/
def config' (R : Pairing) : Config := { R.config with symbolAtoms := R.symbolAtoms }

/-- The states of two expansions side by side. -/
structure Beside (R : Pairing) (m m' : Expansion) : Prop where
  /-- The first state is under the first configuration. -/
  config : m.config = R.config
  /-- The second one is under the second configuration. -/
  config' : m'.config = R.config'
  /-- The depth is the same. -/
  depth : m'.depth = m.depth
  /-- The scopes are alike. -/
  scopes : List.Forall₂ R.Alike m.scopes m'.scopes
  /-- The tiles under construction are the same. -/
  buffer : m'.buffer = m.buffer
  /-- So are the tiles of the finished variations. -/
  variations : m'.variations = m.variations.map m'.retitle

/-- The results of two expansions side by side: they give the same in states that are side by side
again, or fail with the same fault. -/
inductive Ends (R : Pairing) {α : Type} : EStateM.Result ExpansionFault Expansion α →
    EStateM.Result ExpansionFault Expansion α → Prop where
  | ok {a : α} {m m' : Expansion} (h : R.Beside m m') : Ends R (.ok a m) (.ok a m')
  | error {e : ExpansionFault} {m m' : Expansion} : Ends R (.error e m) (.error e m')
  | excused {e : ExpansionFault} {m : Expansion}
      {result : EStateM.Result ExpansionFault Expansion α} (h : R.Excused) :
      Ends R (.error e m) result

variable {R : Pairing} {α β : Type} {m m' : Expansion}

/-! ## States -/

namespace Beside

/-- Two states stay side by side one level deeper. -/
theorem deeper (h : R.Beside m m') : R.Beside m.deeper m'.deeper :=
  ⟨h.config, h.config', congrArg (· + 1) h.depth, h.scopes, h.buffer, h.variations⟩

/-- Two states stay side by side when a scope is opened in both. -/
theorem openScope (h : R.Beside m m') : R.Beside m.openScope m'.openScope :=
  ⟨h.config, h.config', h.depth, .cons R.empty h.scopes, h.buffer, h.variations⟩

/-- Two states stay side by side when the innermost scope is closed in both. -/
theorem closeScope (h : R.Beside m m') : R.Beside m.closeScope m'.closeScope := by
  refine ⟨h.config, h.config', h.depth, ?_, h.buffer, h.variations⟩
  change List.Forall₂ R.Alike m.scopes.tail m'.scopes.tail
  have hscopes := h.scopes
  generalize m.scopes = scopes, m'.scopes = scopes' at hscopes ⊢
  cases hscopes with
  | nil => exact .nil
  | cons _ houter => exact houter

/-- A name may be bound in both states. -/
theorem define (h : R.Beside m m') {name : String} (hname : R.Bindable name) (value : Value) :
    R.Beside (m.define name value) (m'.define name value) := by
  refine ⟨h.config, h.config', h.depth, ?_, h.buffer, h.variations⟩
  change List.Forall₂ R.Alike (bindIn name value m.scopes) (bindIn name value m'.scopes)
  have hscopes := h.scopes
  generalize m.scopes = scopes, m'.scopes = scopes' at hscopes ⊢
  cases hscopes with
  | nil => exact .cons (R.insert value hname R.empty) .nil
  | cons hinner houter => exact .cons (R.insert value hname hinner) houter

/-- The limit on the depth is the same. -/
theorem maxDepth (h : R.Beside m m') : m'.config.maxDepth = m.config.maxDepth := by
  rw [h.config, h.config']
  rfl

/-- The number of finished variations is the same. -/
theorem size (h : R.Beside m m') : m'.variations.size = m.variations.size := by
  rw [h.variations, Array.size_map]

end Beside

/-! ## Steps -/

/-- What needs no state ends side by side in two states that are. -/
theorem Ends.ofExcept (r : Except ExpansionFault α) (h : R.Beside m m') :
    R.Ends (ofExcept r m) (ofExcept r m') := by
  cases r with
  | ok a => exact .ok h
  | error e => exact .error

/-- A fault that is raised in two states ends them side by side. -/
theorem Ends.throw (e : ExpansionFault) :
    R.Ends ((throw e : Step α) m) ((throw e : Step α) m') := .error

/-- Two steps in a row end side by side if the first ones do, and the second ones after them. -/
theorem Ends.bind {step step' : Step α} {next next' : α → Step β}
    (h : R.Ends (step m) (step' m'))
    (hnext : ∀ a n n', step m = .ok a n → R.Beside n n' → R.Ends (next a n) (next' a n')) :
    R.Ends ((step >>= next) m) ((step' >>= next') m') := by
  rw [bind_apply, bind_apply]
  generalize hresult : step m = result at h ⊢
  generalize step' m' = result' at h ⊢
  cases h with
  | ok hbeside => exact hnext _ _ _ hresult hbeside
  | error => exact .error
  | excused hexcused => exact .excused hexcused

/-- A step that only reads is followed in the same state. -/
theorem Ends.bind_readOnly {step step' : Step α} {next next' : α → Step β} (hread : ReadOnly step)
    (h : R.Ends (step m) (step' m'))
    (hnext : ∀ a n', step m = .ok a m → R.Beside m n' → R.Ends (next a m) (next' a n')) :
    R.Ends ((step >>= next) m) ((step' >>= next') m') := by
  refine h.bind fun a n n' hstep hbeside => ?_
  obtain rfl : n = m := by
    rw [hread.eq m, settle_eq_ok] at hstep
    exact hstep.2
  exact hnext a n' hstep hbeside

/-- A step that gives nothing, and another one after it. -/
theorem Ends.seq {step step' : Step Unit} {next next' : Step β} (h : R.Ends (step m) (step' m'))
    (hnext : ∀ n n', step m = .ok () n → R.Beside n n' → R.Ends (next n) (next' n')) :
    R.Ends ((do step; next) m) ((do step'; next') m') :=
  h.bind fun _ n n' hstep hbeside => hnext n n' hstep hbeside

/-- One level deeper, two expansions end side by side, where there is such a level. -/
theorem Ends.nest {p : Position} {step step' : Step α} (h : R.Beside m m')
    (hstep : m.depth < m.config.maxDepth → R.Ends (step m.deeper) (step' m'.deeper)) :
    R.Ends (nest p step m) (nest p step' m') := by
  have hback : ∀ {n n' : Expansion}, R.Beside n n' →
      R.Beside { n with depth := n.depth - 1 } { n' with depth := n'.depth - 1 } :=
    fun h => ⟨h.config, h.config', congrArg (· - 1) h.depth, h.scopes, h.buffer, h.variations⟩
  -- With the same limit and the same depth, both expansions have such a level or neither has.
  unfold Expansion.nest
  rw [h.maxDepth, h.depth]
  split
  · exact .error
  next hdepth =>
    -- Both run one level deeper, and come back by one level where they succeed.
    have hends := hstep (Nat.lt_of_not_le hdepth)
    unfold deeper at hends
    rw [h.depth] at hends
    generalize step { m with depth := m.depth + 1 } = result at hends ⊢
    generalize step' { m' with depth := m.depth + 1 } = result' at hends ⊢
    cases hends with
    | ok hbeside => exact .ok (hback hbeside)
    | error => exact .error
    | excused hexcused => exact .excused hexcused

/-- In scopes of their own, two expansions end side by side. -/
theorem Ends.inScope {step step' : Step α}
    (hstep : R.Ends (step m.openScope) (step' m'.openScope)) :
    R.Ends (inScope step m) (inScope step' m') := by
  unfold Expansion.inScope
  generalize step m.openScope = result at hstep ⊢
  generalize step' m'.openScope = result' at hstep ⊢
  cases hstep with
  | ok hbeside => exact .ok hbeside.closeScope
  | error => exact .error
  | excused hexcused => exact .excused hexcused

/-- Both expansions bind the same value. -/
theorem Ends.assign {binding : Binding} (hnames : ∀ name ∈ binding.names, R.Bindable name)
    (value : Value) (p : Position) (h : R.Beside m m') :
    R.Ends (assign binding value p m) (assign binding value p m') := by
  -- Several names are bound one after the other.
  have hfold : ∀ (entries : List (String × Value)) (m m' : Expansion),
      (∀ x ∈ entries, R.Bindable x.1) → R.Beside m m' →
        R.Beside (entries.foldl (fun m entry => m.define entry.1 entry.2) m)
          (entries.foldl (fun m entry => m.define entry.1 entry.2) m') := by
    intro entries
    induction entries with
    | nil => exact fun _ _ _ h => h
    | cons entry entries ih =>
      intro m m' hentries h
      obtain ⟨hentry, hothers⟩ := List.forall_mem_cons.mp hentries
      exact ih _ _ hothers (h.define hentry entry.2)
  cases binding with
  | name name => exact .ok (h.define (hnames name (List.mem_singleton_self name)) value)
  | tuple names =>
    cases value with
    -- A list is taken apart if it has as many items as there are names, which is the same question
    -- in both.
    | list items =>
      by_cases hlength : items.length = names.length
      · simp only [Expansion.assign, if_pos hlength]
        exact .ok (hfold _ m m' (fun x hx => hnames x.1 (List.of_mem_zip hx).1) h)
      · simp only [Expansion.assign, if_neg hlength]
        exact .error
    | _ => exact .error

/-- More tiles do not change under which name a variation stands. -/
theorem extendFrom_retitle (first : Nat) (tiles : List String) (variations : Array Variation)
    (m : Expansion) :
    extendFrom first tiles (variations.map m.retitle) =
      (extendFrom first tiles variations).map m.retitle := by
  -- One variation is extended: its tiles change, and retitling keeps tiles.
  have hmodify : ∀ (vs : Array Variation) (i : Nat),
      (vs.map m.retitle).modify i (extend tiles) = (vs.modify i (extend tiles)).map m.retitle := by
    intro vs i
    ext1
    · simp
    next j hj hj' =>
      simp only [Array.getElem_modify, Array.getElem_map]
      split <;> rfl
  -- By induction on the places, each of which is extended in turn.
  unfold extendFrom
  rw [Array.size_map]
  generalize List.range' first (variations.size - first) = places
  induction places generalizing variations with
  | nil => rfl
  | cons i places ih =>
    rw [List.foldl_cons, List.foldl_cons, ← ih]
    exact congrArg (List.foldl _ · places) (hmodify variations i)

/-- Both expansions add the same tiles. -/
theorem Ends.addTiles (tiles : List String) (first : Nat) (looped : Bool) (h : R.Beside m m') :
    R.Ends (addTiles tiles first looped m) (addTiles tiles first looped m') := by
  -- The tiles go to the buffer in any case, and after a loop also to the variations since `first`.
  have hbuffer : ∀ {n n' : Expansion}, R.Beside n n' →
      R.Beside { n with buffer := n.buffer ++ tiles } { n' with buffer := n'.buffer ++ tiles } :=
    fun h => ⟨h.config, h.config', h.depth, h.scopes, congrArg (· ++ tiles) h.buffer, h.variations⟩
  have hvariations :
      R.Beside { m with variations := extendFrom first tiles m.variations }
        { m' with variations := extendFrom first tiles m'.variations } := by
    refine ⟨h.config, h.config', h.depth, h.scopes, h.buffer, ?_⟩
    dsimp only
    rw [h.variations, extendFrom_retitle]
    rfl
  unfold Expansion.addTiles
  split
  · exact .ok (hbuffer hvariations)
  · exact .ok (hbuffer h)

/-- Both expansions finish a variation of the same tiles. -/
theorem Ends.finish (p : Position) (h : R.Beside m m') :
    R.Ends (finish p m) (finish p m') := by
  have hcheck : checkCount "variations" (m'.variations.size + 1) m'.config p =
      checkCount "variations" (m.variations.size + 1) m.config p := by
    rw [h.size, h.config, h.config']
    rfl
  unfold Expansion.finish
  rw [bind_apply, bind_apply, get_apply, get_apply]
  dsimp only
  rw [hcheck]
  refine (Ends.ofExcept _ h).bind fun _ n n' hn hbeside => .ok ?_
  refine ⟨hbeside.config, hbeside.config', hbeside.depth, hbeside.scopes, hbeside.buffer, ?_⟩
  dsimp only
  rw [hbeside.variations, Array.map_push, hbeside.buffer]
  rfl

/-- Two blocks of the same form end side by side if their statements do. -/
theorem Ends.block {statements statements' : List Statement} {p : Position}
    {run run' : Nat → Step Unit} (h : R.Beside m m')
    (hloops : statements'.any Statement.isLoop = statements.any Statement.isLoop)
    (hlast : statements'.getLast?.map Statement.position =
      statements.getLast?.map Statement.position)
    (hrun : R.Ends (run m.variations.size m) (run' m.variations.size m')) :
    R.Ends (block statements p run m) (block statements' p run' m') := by
  -- In the end the tiles are those with which the block began.
  have hrestore : ∀ {n n' : Expansion}, R.Beside n n' →
      R.Ends ((modify fun (k : Expansion) => { k with buffer := m.buffer } : Step Unit) n)
        ((modify fun (k : Expansion) => { k with buffer := m.buffer } : Step Unit) n') :=
    fun h => .ok ⟨h.config, h.config', h.depth, h.scopes, rfl, h.variations⟩
  -- Whether a variation is left to finish is read off the form of the block and off the buffer, and
  -- both are the same.
  unfold Expansion.block
  rw [bind_apply, bind_apply, get_apply, get_apply]
  dsimp only
  rw [h.size, h.buffer, hloops, hlast]
  refine hrun.seq fun n n' _ hbeside => ?_
  split
  · rw [bind_apply, bind_apply, get_apply, get_apply]
    dsimp only
    rw [hbeside.buffer]
    split
    · exact hrestore hbeside
    · exact (Ends.finish _ hbeside).seq fun _ _ _ => hrestore
  · exact hrestore hbeside

end Pairing

end Expansion

end HandTemplate
