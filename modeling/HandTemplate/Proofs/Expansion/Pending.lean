import HandTemplate.Proofs.Expansion.Failing
import HandTemplate.Proofs.Expansion.Frame

/-!
# Tiles that failed blocks leave behind

A block that succeeds takes the tiles that it added to the variation under construction away again.
A block that fails does not come to that: the tiles of its group calls before the fault stay, and
after them those of the blocks that were running within it. Nothing takes them away later, so they
begin every variation that further calls finish in the same state. Main statement:
`runBlock_buffer`.
-/

namespace HandTemplate

namespace Expansion

/-- The tiles that a call adds to the variation under construction: those of the group that it
makes, if it makes one. -/
def callTiles (name : String) (arguments : List Expr) (position : Position) (m : Expansion) :
    List String :=
  match callValue name arguments position m with
  | .ok (.group g) _ => g.tiles
  | _ => []

/-- The tiles that the turns of a loop leave under construction, where `bodyPending` are those of
the body for the state in which it begins: the tiles of the turn that fails. -/
def turnsPending (binding : Binding) (body : List Statement) (position : Position)
    (bodyPending : Expansion → List String) : List Value → Expansion → List String
  | [], _ => []
  | item :: items, m =>
    match turn binding body position item m with
    | .ok _ m' => turnsPending binding body position bodyPending items m'
    | .error _ _ =>
      match assign binding item position m.openScope with
      | .ok _ m' => bodyPending m'
      | .error _ _ => []

mutual

/-- The tiles that a statement leaves under construction, whether it succeeds or fails: those of a
call, and those of the turn of a loop that fails. -/
def pending : Statement → Expansion → List String
  | .assign _ _ _, _ => []
  | .foreach binding source body p, m =>
    if m.config.maxDepth ≤ m.depth then []
    else
      match exprValue source .nothing m.deeper with
      | .ok v _ =>
        turnsPending binding body p (fun m => pendingAll body m.variations.size false m)
          (v.elements?.getD []) m.deeper
      | .error _ _ => []
  | .call name arguments p, m => callTiles name arguments p m

/-- The tiles that the statements of a block leave under construction up to the one that fails, or
all of them if none does. The block began when `first` variations were finished. -/
def pendingAll : List Statement → (first : Nat) → (looped : Bool) → Expansion → List String
  | [], _, _, _ => []
  | s :: statements, first, looped, m =>
    pending s m ++
      match run s first looped m with
      | .ok _ m' => pendingAll statements first (looped || s.isLoop) m'
      | .error _ _ => []

end

/-! ## Steps -/

section
variable {α β : Type} {m m' : Expansion} {e : ExpansionFault} {tiles : List String}

/-- A step adds some tiles to the variation under construction in a state, whether it succeeds or
fails. -/
def Adds (step : Step α) (m : Expansion) (tiles : List String) : Prop :=
  (after step m).buffer = m.buffer ++ tiles

/-- A step that succeeds leaves the tiles that it adds after those before. -/
theorem Adds.ok {step : Step α} {a : α} (h : Adds step m tiles) (hstep : step m = .ok a m') :
    m'.buffer = m.buffer ++ tiles := by
  unfold Adds after at h
  rw [hstep] at h
  exact h

/-- A step that fails leaves the tiles that it adds after those before. -/
theorem Adds.error {step : Step α} (h : Adds step m tiles) (hstep : step m = .error e m') :
    m'.buffer = m.buffer ++ tiles := by
  unfold Adds after at h
  rw [hstep] at h
  exact h

/-- A step that only reads adds no tiles. -/
theorem Adds.readOnly {step : Step α} (h : ReadOnly step) (m : Expansion) : Adds step m [] := by
  unfold Adds
  rw [h.after_eq, List.append_nil]

/-- Two steps in a row fail in the state in which the first one does, or the second one after it. -/
theorem bind_apply_eq_error {step : Step α} {next : α → Step β} {m'' : Expansion} :
    (step >>= next) m = .error e m'' ↔
      step m = .error e m'' ∨ ∃ a m', step m = .ok a m' ∧ next a m' = .error e m'' := by
  rw [bind_apply]
  cases step m with
  | ok a m' => simp
  | error e' m' => simp

/-- A step in a scope of its own fails as it does there, and its scope is closed. -/
theorem inScope_eq_error {step : Step α} :
    inScope step m = .error e m' ↔
      ∃ m'', step m.openScope = .error e m'' ∧ m' = m''.closeScope := by
  unfold inScope
  cases step m.openScope with
  | ok a m'' => exact ⟨fun h => (nomatch h), fun ⟨_, h, _⟩ => (nomatch h)⟩
  | error e' m'' =>
    exact ⟨fun h => by cases h; exact ⟨m'', rfl, rfl⟩, fun ⟨_, h, hm⟩ => by cases h; rw [hm]⟩

/-- A step one level deeper adds the same tiles. -/
theorem Adds.nest {step : Step α} (position : Position) (hdepth : m.depth < m.config.maxDepth)
    (h : Adds step m.deeper tiles) : Adds (nest position step) m tiles := by
  unfold Adds at h ⊢
  rw [after_nest hdepth]
  exact h

end

/-- Binding names adds no tiles. -/
theorem assign_adds (binding : Binding) (value : Value) (position : Position) (m : Expansion) :
    Adds (assign binding value position) m [] := by
  -- Of several names each one is bound without a change of the tiles.
  have hfold : ∀ (entries : List (String × Value)) (m : Expansion),
      (entries.foldl (fun m entry => m.define entry.1 entry.2) m).buffer = m.buffer := by
    intro entries
    induction entries with
    | nil => exact fun _ => rfl
    | cons entry entries ih => exact fun m => ih (m.define entry.1 entry.2)
  unfold Adds
  rw [List.append_nil]
  cases binding with
  | name name => rfl
  | tuple names =>
    cases value with
    | list items =>
      by_cases hlength : items.length = names.length
      · simp only [assign, if_pos hlength]
        exact hfold (names.zip items) m
      · simp only [assign, if_neg hlength]
        rfl
    | _ => rfl

/-- The tiles of a group are added, whatever happens to finished variations. -/
theorem addTiles_adds (tiles : List String) (first : Nat) (looped : Bool) (m : Expansion) :
    Adds (addTiles tiles first looped) m tiles := by
  unfold Adds addTiles
  split <;> rfl

/-- Finishing a variation adds no tiles. -/
theorem finish_adds (position : Position) (m : Expansion) : Adds (finish position) m [] := by
  unfold Adds finish
  rw [List.append_nil, after_bind, get_apply]
  dsimp only
  rw [after_bind]
  cases checkCount "variations" (m.variations.size + 1) m.config position <;> rfl

/-! ## Blocks -/

section
variable {statements : List Statement} {position : Position} {m m' : Expansion}

/-- A block that succeeds takes its tiles away. -/
theorem runBlock_buffer_of_ok (h : runBlock statements position m = .ok () m') :
    m'.buffer = m.buffer := by
  unfold runBlock block at h
  rw [bind_apply, get_apply] at h
  dsimp only at h
  obtain ⟨_, m₁, -, hend⟩ := bind_apply_eq_ok.mp h
  split at hend
  next =>
    rw [bind_apply, get_apply] at hend
    dsimp only at hend
    split at hend
    next => rw [Context.restore_eq_ok.mp hend]
    next =>
      obtain ⟨_, m₂, -, hrestore⟩ := bind_apply_eq_ok.mp hend
      rw [Context.restore_eq_ok.mp hrestore]
  next => rw [Context.restore_eq_ok.mp hend]

/-- A block that fails leaves what its statements have added, since it takes them away at its end
only. -/
theorem runBlock_buffer_of_error {tiles : List String} {e : ExpansionFault}
    (hrun : Adds (runAll statements m.variations.size false) m tiles)
    (h : runBlock statements position m = .error e m') : m'.buffer = m.buffer ++ tiles := by
  unfold runBlock block at h
  rw [bind_apply, get_apply] at h
  dsimp only at h
  rcases bind_apply_eq_error.mp h with hfails | ⟨_, m₁, hruns, hend⟩
  · exact hrun.error hfails
  · -- Of what follows the statements, only finishing a variation can fail.
    rw [← hrun.ok hruns]
    split at hend
    next =>
      rw [bind_apply, get_apply] at hend
      dsimp only at hend
      split at hend
      next => cases hend
      next =>
        rcases bind_apply_eq_error.mp hend with hfinish | ⟨_, _, -, hrestore⟩
        · exact ((finish_adds _ _).error hfinish).trans (List.append_nil _)
        · cases hrestore
    next => cases hend

end

/-! ## Loops -/

section
variable {binding : Binding} {body : List Statement} {position : Position} {item : Value}
  {m m' : Expansion}

/-- A turn that succeeds adds no tiles. -/
theorem turn_buffer_of_ok (h : turn binding body position item m = .ok () m') :
    m'.buffer = m.buffer := by
  obtain ⟨m₁, hstep, rfl⟩ := Context.inScope_eq_ok.mp h
  obtain ⟨_, m₂, hassign, hblock⟩ := bind_apply_eq_ok.mp hstep
  have hbound := (assign_adds binding item position m.openScope).ok hassign
  exact (runBlock_buffer_of_ok hblock).trans (hbound.trans (List.append_nil _))

variable {bodyPending : Expansion → List String}
  (hbody : ∀ m, Adds (runAll body m.variations.size false) m (bodyPending m))
include hbody

/-- A turn that fails leaves the tiles of its body, if it comes to it. -/
theorem turn_buffer_of_error {e : ExpansionFault}
    (h : turn binding body position item m = .error e m') :
    m'.buffer = m.buffer ++
      match assign binding item position m.openScope with
      | .ok _ m₁ => bodyPending m₁
      | .error _ _ => [] := by
  obtain ⟨m₁, hstep, rfl⟩ := inScope_eq_error.mp h
  have hbound := assign_adds binding item position m.openScope
  rcases bind_apply_eq_error.mp hstep with hassign | ⟨_, m₂, hassign, hblock⟩
  · have hbuffer : m₁.buffer = m.buffer ++ [] := hbound.error hassign
    rw [hassign]
    exact hbuffer
  · have hbefore : m₂.buffer = m.buffer := (hbound.ok hassign).trans (List.append_nil _)
    have hbuffer : m₁.buffer = m₂.buffer ++ bodyPending m₂ :=
      runBlock_buffer_of_error (hbody m₂) hblock
    rw [hassign, ← hbefore]
    exact hbuffer

variable (binding position)

/-- Turns that succeed add no tiles, and a turn after them that fails leaves those of its body. -/
theorem turns_adds (items : List Value) (m : Expansion) :
    Adds (forValues (turn binding body position) items) m
      (turnsPending binding body position bodyPending items m) := by
  -- By induction on the items, of which only the last one that is visited can leave tiles.
  induction items generalizing m with
  | nil => exact .readOnly (.pure ()) m
  | cons item items ih =>
    unfold turnsPending Adds
    rw [forValues, after_bind]
    cases hturn : turn binding body position item m with
    | ok _ m₁ =>
      -- The tiles of the turn are gone, so that the next turn begins with the same ones.
      dsimp only
      rw [← turn_buffer_of_ok hturn]
      exact ih m₁
    | error e m₁ => exact turn_buffer_of_error hbody hturn

/-- A loop leaves the tiles of its turns. -/
theorem loop_adds (source : Expr) (m : Expansion) :
    Adds (nest position (forEach source (turn binding body position))) m
      (if m.config.maxDepth ≤ m.depth then []
      else
        match exprValue source .nothing m.deeper with
        | .ok v _ => turnsPending binding body position bodyPending (v.elements?.getD []) m.deeper
        | .error _ _ => []) := by
  split
  -- Where there is no level left, nothing is run.
  next hdepth =>
    unfold Adds after
    rw [nest_tooDeep _ hdepth, List.append_nil]
  next hdepth =>
    refine .nest position (Nat.lt_of_not_le hdepth) ?_
    -- The source only reads, so that the turns begin with the tiles of the loop.
    have hreads := (exprValue_readOnly source .nothing).after_eq m.deeper
    unfold after at hreads
    cases hsource : exprValue source .nothing m.deeper with
    | error e m₁ =>
      rw [hsource] at hreads
      obtain rfl : m₁ = m.deeper := hreads
      unfold Adds after
      rw [forEach_of_error hsource, List.append_nil]
    | ok v m₁ =>
      rw [hsource] at hreads
      obtain rfl : m₁ = m.deeper := hreads
      -- A value without elements is refused before any turn.
      cases hitems : v.elements? with
      | none =>
        unfold Adds
        rw [forEach_eq, after_bind, hsource]
        dsimp only
        rw [hitems]
        exact (List.append_nil _).symm
      | some items =>
        have hturns := turns_adds binding position hbody items m.deeper
        unfold Adds after at hturns ⊢
        rw [forEach_of_value hsource hitems, hturns]
        dsimp only
        rw [hitems]
        rfl

end

/-! ## Statements -/

/-- A call that stands as a statement adds the tiles of the group that it makes. -/
theorem call_adds (name : String) (arguments : List Expr) (position : Position) (first : Nat)
    (looped : Bool) (m : Expansion) :
    Adds (run (.call name arguments position) first looped) m
      (callTiles name arguments position m) := by
  have hcall := callValue_eq name arguments position m
  -- The call only reads, whether or not it gives a group.
  unfold Adds callTiles
  rw [run, after_bind]
  cases hvalue : m.view.run (callValue name arguments position) with
  | error e =>
    rw [hvalue] at hcall
    rw [hcall]
    exact (List.append_nil _).symm
  | ok v =>
    rw [hvalue] at hcall
    rw [hcall]
    cases v with
    | group g => exact addTiles_adds g.tiles first looped m
    | _ => exact (List.append_nil _).symm

/-- An assignment adds no tiles. -/
theorem assignment_adds (target : Binding) (value : Expr) (position : Position) (first : Nat)
    (looped : Bool) (m : Expansion) :
    Adds (run (.assign target value position) first looped) m [] := by
  have hvalue := (exprValue_readOnly value .nothing).eq m
  unfold Adds
  rw [run, after_bind]
  cases hread : m.view.run (exprValue value .nothing) with
  | error e =>
    rw [hread] at hvalue
    rw [hvalue]
    exact (List.append_nil _).symm
  | ok v =>
    rw [hread] at hvalue
    rw [hvalue]
    exact assign_adds target v position m

mutual

/-- A statement adds its pending tiles. -/
theorem run_adds : (s : Statement) → (first : Nat) → (looped : Bool) → (m : Expansion) →
    Adds (run s first looped) m (pending s m)
  | .assign target value p, first, looped, m => by
    rw [pending]
    exact assignment_adds target value p first looped m
  | .foreach binding source body p, _, _, m => by
    rw [pending]
    exact loop_adds binding p (fun m => runAll_adds body m.variations.size false m) source m
  | .call name arguments p, first, looped, m => by
    rw [pending]
    exact call_adds name arguments p first looped m

/-- Statements add the pending tiles of each, up to the first that fails. -/
theorem runAll_adds : (statements : List Statement) → (first : Nat) → (looped : Bool) →
    (m : Expansion) → Adds (runAll statements first looped) m
      (pendingAll statements first looped m)
  | [], _, _, m => by
    rw [pendingAll]
    exact .readOnly (.pure ()) m
  | s :: statements, first, looped, m => by
    -- The statement adds its own tiles, and the others go on from there if it succeeds.
    have hfirst := run_adds s first looped m
    unfold Adds
    rw [pendingAll, runAll, after_bind]
    cases hrun : run s first looped m with
    | ok _ m₁ =>
      dsimp only
      rw [← List.append_assoc, ← hfirst.ok hrun]
      exact runAll_adds statements first (looped || s.isLoop) m₁
    | error e m₁ =>
      dsimp only
      rw [List.append_nil]
      exact hfirst.error hrun

end

/-! ## The tiles after a block -/

/-- A block that succeeds leaves the tiles under construction as they were. A block that fails
leaves its pending tiles after them, so that they are as they were exactly if it has none, and in a
state that has a scope every variation that further calls finish begins with all these tiles. -/
theorem runBlock_buffer (statements : List Statement) (position : Position) (m : Expansion) :
    (∀ m', runBlock statements position m = .ok () m' → m'.buffer = m.buffer) ∧
      ∀ e m', runBlock statements position m = .error e m' →
        m'.buffer = m.buffer ++ pendingAll statements m.variations.size false m ∧
          (m'.buffer = m.buffer ↔ pendingAll statements m.variations.size false m = []) ∧
          (m.scopes ≠ [] → ∀ calls : List Call, ∃ added : List Variation,
            (calls.foldl Call.leave m').variations.toList = m'.variations.toList ++ added ∧
              ∀ v ∈ added,
                m.buffer ++ pendingAll statements m.variations.size false m <+: v.tiles) := by
  refine ⟨fun m' hok => runBlock_buffer_of_ok hok, fun e m' herror => ?_⟩
  have hbuffer := runBlock_buffer_of_error (runAll_adds statements m.variations.size false m) herror
  refine ⟨hbuffer, by rw [hbuffer, List.append_right_eq_self], fun hscopes calls => ?_⟩
  -- The failed block is a call like those that follow it, and leaves a scope for them.
  have hleave : (Call.block statements position).leave m = m' := by
    change after (runBlock statements position) m = m'
    unfold after
    rw [herror]
  have hkept : m'.scopes ≠ [] := by
    rw [← hleave]
    exact ((Call.block statements position).leave_keeps hscopes).scopes_ne_nil hscopes
  -- By induction on the calls, none of which takes away the tiles that were there.
  have hcalls : Keeps 1 m' (calls.foldl Call.leave m') := by
    refine List.foldlRecOn calls Call.leave (.refl 1 m') fun m'' hm'' call _ => ?_
    have hchanges : call.changes ≤ 1 := by cases call <;> simp [Call.changes]
    exact hm''.trans ((call.leave_keeps (hm''.scopes_ne_nil hkept)).mono hchanges)
  rw [← hbuffer]
  exact hcalls.variations

/-- The fault arises in the first turn of the loop, after one call of the block and one of the
loop's body. Their tiles begin the variation of the next block. -/
theorem runBlock_buffer_nested :
    let m : Expansion := { Expansion.new {} with scopes := [outermostScope .empty] }
    let body : List Statement :=
      [.call "single" [.identifier "n" ⟨3, 8⟩] ⟨3, 1⟩,
        .assign (.name "x") (.identifier "y" ⟨4, 5⟩) ⟨4, 1⟩]
    let statements : List Statement :=
      [.call "pair" [.identifier "E" ⟨1, 6⟩] ⟨1, 1⟩,
        .foreach (.name "n") (.range 1 2 ⟨2, 14⟩) body ⟨2, 1⟩]
    let next : Call := .block [.call "single" [.identifier "N" ⟨7, 8⟩] ⟨7, 1⟩] ⟨7, 1⟩
    let m' := after (runBlock statements ⟨1, 1⟩) m
    runBlock statements ⟨1, 1⟩ m = .error ⟨.unboundName "y", ⟨4, 5⟩⟩ m' ∧
      m'.buffer = ["E", "E", "1"] ∧
      (next.leave m').variations.toList.map Variation.tiles = [["E", "E", "1", "N"]] := by
  intro m body statements next m'
  have herror : runBlock statements ⟨1, 1⟩ m = .error ⟨.unboundName "y", ⟨4, 5⟩⟩ m' := by cbv
  -- The pending tiles are those of the two calls, and the tiles of the next block come after them.
  have hbuffer : m'.buffer = m.buffer ++ pendingAll statements m.variations.size false m :=
    ((runBlock_buffer statements ⟨1, 1⟩ m).2 _ _ herror).1
  have hpending : pendingAll statements m.variations.size false m = ["E", "E", "1"] := by cbv
  have htiles : (next.leave m').variations.toList.map Variation.tiles =
      [["E", "E", "1", "N"]] := by decide +kernel
  rw [hpending] at hbuffer
  exact ⟨herror, hbuffer, htiles⟩

end Expansion

end HandTemplate
