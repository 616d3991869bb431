import Mathlib
import HandTemplate.Proofs.Expansion.Refinement

/-!
# What calls leave alone

A block, a loop or an expression can be run in any state that has a scope, and whether it succeeds
or fails on its way, most of the state is afterwards what it was: the limits, the depth, the scopes
around the innermost one, and the variations that were finished already. A block may change the
innermost scope; a loop and an expression change no scope. Finished variations are only added, and
each of the new ones begins with the tiles that were under construction before. Main statement:
`calls_keep`.
-/

namespace HandTemplate

namespace Expansion

/-- The state that a step leaves behind, whether it succeeds or fails. -/
def after {α : Type} (step : Step α) (m : Expansion) : Expansion :=
  match step m with
  | .ok _ m' => m'
  | .error _ m' => m'

/-- What a state has in common with an earlier one, of which at most the innermost `changed` scopes
differ. -/
structure Keeps (changed : Nat) (m m' : Expansion) : Prop where
  /-- The limits are the same. -/
  config : m'.config = m.config
  /-- As many loops and calls are running. -/
  depth : m'.depth = m.depth
  /-- Variations get the same name. -/
  name : m'.name = m.name
  /-- Variations get the same description. -/
  description : m'.description = m.description
  /-- There are as many scopes. -/
  frames : m'.scopes.length = m.scopes.length
  /-- The outer scopes are the same. -/
  outer : m'.scopes.drop changed = m.scopes.drop changed
  /-- The tiles under construction are still there. -/
  buffer : m.buffer <+: m'.buffer
  /-- The finished variations come first, and the new ones begin with the tiles that were under
  construction. -/
  variations : ∃ added : List Variation,
    m'.variations.toList = m.variations.toList ++ added ∧ ∀ v ∈ added, m.buffer <+: v.tiles

namespace Keeps

variable {changed : Nat} {m m' m'' : Expansion}

/-- A state has all in common with itself. -/
theorem refl (changed : Nat) (m : Expansion) : Keeps changed m m :=
  ⟨rfl, rfl, rfl, rfl, rfl, rfl, List.prefix_refl _, [], by simp, nofun⟩

/-- What is kept twice is kept. -/
theorem trans (h : Keeps changed m m') (h' : Keeps changed m' m'') : Keeps changed m m'' := by
  obtain ⟨added, hadded, hbegin⟩ := h.variations
  obtain ⟨added', hadded', hbegin'⟩ := h'.variations
  refine ⟨h'.config.trans h.config, h'.depth.trans h.depth, h'.name.trans h.name,
    h'.description.trans h.description, h'.frames.trans h.frames, h'.outer.trans h.outer,
    h.buffer.trans h'.buffer, added ++ added', ?_, fun v hv => ?_⟩
  · rw [hadded', hadded, List.append_assoc]
  · rcases List.mem_append.mp hv with hv | hv
    · exact hbegin v hv
    · exact h.buffer.trans (hbegin' v hv)

/-- More scopes may differ than do. -/
theorem mono {k : Nat} (h : Keeps changed m m') (hk : changed ≤ k) : Keeps k m m' := by
  refine ⟨h.config, h.depth, h.name, h.description, h.frames, ?_, h.buffer, h.variations⟩
  have hdrop := congrArg (List.drop (k - changed)) h.outer
  rwa [List.drop_drop, List.drop_drop, Nat.add_sub_cancel' hk] at hdrop

/-- As long as scopes are kept there is one. -/
theorem scopes_ne_nil (h : Keeps changed m m') (hscopes : m.scopes ≠ []) : m'.scopes ≠ [] := by
  rw [← List.length_pos_iff] at hscopes ⊢
  rw [h.frames]
  exact hscopes

end Keeps

/-- A step that keeps all but the innermost `changed` scopes of every state that has a scope. -/
def Framed {α : Type} (changed : Nat) (step : Step α) : Prop :=
  ∀ m : Expansion, m.scopes ≠ [] → Keeps changed m (after step m)

/-- A step that keeps what was kept since the state `m`. -/
def KeepsSince {α : Type} (changed : Nat) (m : Expansion) (step : Step α) : Prop :=
  ∀ m', Keeps changed m m' → Keeps changed m (after step m')

section
variable {α β : Type} {changed : Nat} {m : Expansion}

/-- Two steps in a row leave the state that the second one leaves, or that the first one failed in.
-/
theorem after_bind (step : Step α) (next : α → Step β) (m : Expansion) :
    after (step >>= next) m =
      match step m with
      | .ok a m' => after (next a) m'
      | .error _ m' => m' := by
  unfold after
  rw [bind_apply]
  cases step m <;> rfl

/-- A step that only reads leaves the state as it is. -/
theorem ReadOnly.after_eq {step : Step α} (h : ReadOnly step) (m : Expansion) :
    after step m = m := by
  unfold after
  rw [h.eq m]
  cases m.view.run step <;> rfl

/-- A step that only reads keeps what was kept before. -/
theorem KeepsSince.readOnly {step : Step α} (h : ReadOnly step) : KeepsSince changed m step := by
  intro m' hm'
  rw [h.after_eq]
  exact hm'

/-- Two steps in a row keep what each of them keeps; a failure of the first ends both. -/
theorem KeepsSince.bind {step : Step α} {next : α → Step β} (h : KeepsSince changed m step)
    (hnext : ∀ a, KeepsSince changed m (next a)) : KeepsSince changed m (step >>= next) := by
  intro m' hm'
  have hstep := h m' hm'
  rw [after_bind]
  unfold after at hstep
  split
  next heq =>
    rw [heq] at hstep
    exact hnext _ _ hstep
  next heq =>
    rw [heq] at hstep
    exact hstep

/-- A step that keeps its own state keeps what was kept before. -/
theorem Framed.since {step : Step α} (h : Framed changed step) (hscopes : m.scopes ≠ []) :
    KeepsSince changed m step :=
  fun _ hm' => hm'.trans (h _ (hm'.scopes_ne_nil hscopes))

/-- A step keeps the states in which it keeps what was kept since it began. -/
theorem framed_of_since {step : Step α}
    (h : ∀ m : Expansion, m.scopes ≠ [] → KeepsSince changed m step) : Framed changed step :=
  fun m hscopes => h m hscopes m (.refl changed m)

/-- A step that keeps all scopes keeps the outer ones. -/
theorem Framed.mono {k : Nat} {step : Step α} (h : Framed changed step) (hk : changed ≤ k) :
    Framed k step :=
  fun m hscopes => (h m hscopes).mono hk

/-- A step that only reads keeps all scopes. -/
theorem Framed.readOnly {step : Step α} (h : ReadOnly step) : Framed changed step :=
  framed_of_since fun _ _ => .readOnly h

/-- Two steps in a row keep what both of them keep. -/
theorem Framed.bind {step : Step α} {next : α → Step β} (h : Framed changed step)
    (hnext : ∀ a, Framed changed (next a)) : Framed changed (step >>= next) :=
  framed_of_since fun _ hscopes => (h.since hscopes).bind fun a => (hnext a).since hscopes

/-- A step that looks at the state first keeps what the step does that it goes on with. -/
theorem KeepsSince.get {next : Expansion → Step α} (h : ∀ m', KeepsSince changed m (next m')) :
    KeepsSince changed m (get >>= next) :=
  fun m' hm' => h m' m' hm'

/-- A change of the state keeps what was kept before if it does so for every such state. -/
theorem KeepsSince.modify {f : Expansion → Expansion}
    (h : ∀ m', Keeps changed m m' → Keeps changed m (f m')) :
    KeepsSince changed m (modify f) :=
  h

/-- A step one level deeper leaves the state that it would leave there, and gives the level back. -/
theorem after_nest {position : Position} {step : Step α} (hdepth : m.depth < m.config.maxDepth) :
    after (nest position step) m =
      { after step { m with depth := m.depth + 1 } with
        depth := (after step { m with depth := m.depth + 1 }).depth - 1 } := by
  unfold after nest
  rw [if_neg (Nat.not_le.mpr hdepth)]
  cases step { m with depth := m.depth + 1 } <;> rfl

/-- A step in a scope of its own leaves the state that it would leave there, without that scope. -/
theorem after_inScope (step : Step α) (m : Expansion) :
    after (inScope step) m = (after step m.openScope).closeScope := by
  unfold after inScope
  cases step m.openScope <;> rfl

/-- One level deeper, a step keeps what it keeps: the level is left again in any case. -/
theorem Framed.nest {step : Step α} (position : Position) (h : Framed changed step) :
    Framed changed (nest position step) := by
  intro m hscopes
  rcases Nat.lt_or_ge m.depth m.config.maxDepth with hdepth | hdepth
  · have hinner := h { m with depth := m.depth + 1 } hscopes
    rw [after_nest hdepth]
    exact { hinner with depth := by rw [hinner.depth, Nat.add_sub_cancel] }
  · have hnone : after (Expansion.nest position step) m = m := by
      unfold after Expansion.nest
      rw [if_pos hdepth]
    rw [hnone]
    exact .refl changed m

/-- In a scope of its own, a step that may change the innermost scope changes none: that scope is
left again in any case. -/
theorem Framed.inScope {step : Step α} (h : Framed 1 step) : Framed 0 (inScope step) := by
  intro m hscopes
  have hinner := h m.openScope (List.cons_ne_nil _ _)
  have hscopes' : (after step m.openScope).scopes.tail = m.scopes := by
    rw [← List.drop_one]
    exact hinner.outer
  rw [after_inScope]
  exact { hinner with frames := congrArg List.length hscopes', outer := hscopes' }

end

/-! ## Bindings and loops -/

section
variable {changed : Nat} {m : Expansion}

/-- Binding a name changes the innermost scope only. -/
theorem define_keeps (name : String) (value : Value) (hscopes : m.scopes ≠ []) :
    Keeps 1 m (m.define name value) := by
  obtain ⟨scope, scopes, hcons⟩ := List.exists_cons_of_ne_nil hscopes
  unfold define
  rw [hcons]
  refine ⟨rfl, rfl, rfl, rfl, ?_, ?_, List.prefix_refl _, [], by simp, nofun⟩
  · rw [hcons]
    rfl
  · rw [hcons]
    rfl

/-- An assignment changes the innermost scope at most. -/
theorem assign_framed (binding : Binding) (value : Value) (position : Position) :
    Framed 1 (assign binding value position) := by
  -- A single name and each of several names are bound in the same way.
  have hfold : ∀ (entries : List (String × Value)) (m : Expansion), m.scopes ≠ [] →
      Keeps 1 m (entries.foldl (fun m entry => m.define entry.1 entry.2) m) := by
    intro entries
    induction entries with
    | nil => exact fun m _ => .refl 1 m
    | cons entry entries ih =>
      intro m hscopes
      have hfirst := define_keeps entry.1 entry.2 hscopes
      exact hfirst.trans (ih _ (hfirst.scopes_ne_nil hscopes))
  cases binding with
  | name name => exact fun m hscopes => define_keeps name value hscopes
  | tuple names =>
    cases value with
    | list items =>
      by_cases hlength : items.length = names.length
      · simp only [assign, if_pos hlength]
        exact fun m hscopes => hfold (names.zip items) m hscopes
      · simp only [assign, if_neg hlength]
        exact .readOnly (.ofExcept (.error _))
    | _ => exact .readOnly (.ofExcept (.error _))

/-- A loop over integers keeps what each of its turns keeps. -/
theorem forRange_framed {step : Value → Step Unit} (h : ∀ item, Framed changed (step item))
    (count : Nat) (first : Int) : Framed changed (forRange step count first) := by
  induction count generalizing first with
  | zero => exact .readOnly (.pure ())
  | succ count ih => exact (h _).bind fun _ => ih (first + 1)

/-- A loop over values keeps what each of its turns keeps. -/
theorem forValues_framed {step : Value → Step Unit} (h : ∀ item, Framed changed (step item))
    (values : List Value) : Framed changed (forValues step values) := by
  induction values with
  | nil => exact .readOnly (.pure ())
  | cons value values ih => exact (h value).bind fun _ => ih

/-- A walk over a source keeps what the step for each element keeps. -/
theorem forEach_framed {step : Value → Step Unit} (source : Expr)
    (h : ∀ item, Framed changed (step item)) : Framed changed (forEach source step) := by
  unfold forEach
  split
  · refine framed_of_since fun m hscopes => .get fun m' => ?_
    exact (KeepsSince.readOnly (.ofExcept _)).bind fun _ => (forRange_framed h _ _).since hscopes
  · refine (Framed.readOnly (exprValue_readOnly _ .nothing)).bind fun value => ?_
    split
    · exact forValues_framed h _
    · exact .readOnly (.ofExcept (.error _))

end

/-! ## Blocks -/

section
variable {m : Expansion}

/-- New tiles go to the tiles under construction and to new variations, but to none that was
finished before. -/
theorem addTiles_keeps (tiles : List String) (looped : Bool) :
    KeepsSince 1 m (addTiles tiles m.variations.size looped) := by
  have hextend : KeepsSince 1 m (modify fun m' =>
      { m' with variations := extendFrom m.variations.size tiles m'.variations }) := by
    refine .modify fun m' hm' => ?_
    -- The variations since then are new ones, and they are extended at their ends.
    obtain ⟨added, hadded, hbegin⟩ := hm'.variations
    have harray : m'.variations = (m.variations.toList ++ added).toArray := by
      rw [← hadded, Array.toArray_toList]
    refine { hm' with variations := ⟨added.map (extend tiles), ?_, fun v hv => ?_⟩ }
    · rw [harray, ← Array.length_toList, extendFrom_append]
    · obtain ⟨w, hw, rfl⟩ := List.mem_map.mp hv
      exact (hbegin w hw).trans (List.prefix_append _ _)
  have hbuffer : KeepsSince 1 m (modify fun m' => { m' with buffer := m'.buffer ++ tiles }) :=
    .modify fun m' hm' => { hm' with buffer := hm'.buffer.trans (List.prefix_append _ _) }
  unfold addTiles
  split
  · exact hextend.bind fun _ => hbuffer
  · exact hbuffer

/-- A variation that is finished begins with the tiles that were under construction. -/
theorem finish_keeps (position : Position) : KeepsSince 1 m (finish position) := by
  refine .get fun m' => (KeepsSince.readOnly (.ofExcept _)).bind fun _ => .modify fun m'' hm'' => ?_
  obtain ⟨added, hadded, hbegin⟩ := hm''.variations
  refine { hm'' with
    variations := ⟨added ++ [⟨m''.buffer, m''.name, m''.description⟩], ?_, fun v hv => ?_⟩ }
  · simp [hadded]
  · rcases List.mem_append.mp hv with hv | hv
    · exact hbegin v hv
    · rw [List.mem_singleton.mp hv]
      exact hm''.buffer

/-- A block keeps what its statements keep: what they add to the tiles under construction is taken
away again if the block succeeds, and is left behind them if it fails. -/
theorem block_framed {statements : List Statement} {position : Position} {run : Nat → Step Unit}
    (h : ∀ m : Expansion, m.scopes ≠ [] → KeepsSince 1 m (run m.variations.size)) :
    Framed 1 (block statements position run) := by
  intro m hscopes
  -- In the end the tiles under construction are set to those from which the block began.
  have hrestore : KeepsSince 1 m (modify fun m' => { m' with buffer := m.buffer }) :=
    .modify fun m' hm' => { hm' with buffer := List.prefix_refl _ }
  have hblock : KeepsSince 1 m (do
      run m.variations.size
      if !statements.any Statement.isLoop then
        unless (← get).buffer.isEmpty do
          finish ((statements.getLast?.map Statement.position).getD position)
      modify fun m' => { m' with buffer := m.buffer }) := by
    refine (h m hscopes).bind fun _ => ?_
    split
    · refine .get fun m' => ?_
      split
      · exact hrestore
      · exact (finish_keeps _).bind fun _ => hrestore
    · exact hrestore
  exact hblock m (.refl 1 m)

end

/-- A loop keeps all scopes if its body is a block that keeps all but the innermost. -/
theorem loop_framed (binding : Binding) (source : Expr) {body : List Statement}
    (position : Position)
    (hbody : ∀ m : Expansion, m.scopes ≠ [] →
      KeepsSince 1 m (runAll body m.variations.size false)) :
    Framed 0 (nest position do
      forEach source fun item => inScope do
        assign binding item position
        block body position fun first => runAll body first false) :=
  .nest position <| forEach_framed source fun item =>
    .inScope <| (assign_framed binding item position).bind fun _ => block_framed hbody

mutual

/-- A statement of a block keeps what was kept since the block began. -/
theorem run_since : (s : Statement) → {m : Expansion} → m.scopes ≠ [] → (looped : Bool) →
    KeepsSince 1 m (run s m.variations.size looped)
  | .assign target value p, _, hscopes, _ =>
    ((Framed.readOnly (exprValue_readOnly value .nothing)).bind
      fun item => assign_framed target item p).since hscopes
  | .foreach binding source body p, _, hscopes, _ =>
    ((loop_framed binding source p fun _ hscopes => runAll_since body hscopes false).mono
      (Nat.zero_le 1)).since hscopes
  | .call name arguments p, m, _, looped => by
    have hcall : ReadOnly (callValue name arguments p) :=
      callWith_readOnly name p fun fallback => exprValues_readOnly arguments fallback
    refine (KeepsSince.readOnly hcall).bind fun value => ?_
    split
    · exact addTiles_keeps _ looped
    · exact .readOnly (.pure ())

/-- The statements of a block keep what was kept since the block began. -/
theorem runAll_since : (statements : List Statement) → {m : Expansion} → m.scopes ≠ [] →
    (looped : Bool) → KeepsSince 1 m (runAll statements m.variations.size looped)
  | [], _, _, _ => .readOnly (.pure ())
  | s :: statements, _, hscopes, looped =>
    (run_since s hscopes looped).bind fun _ => runAll_since statements hscopes (looped || s.isLoop)

end

/-! ## Calls -/

/-- What an expansion can be asked to do in any of its states. -/
inductive Call where
  /-- To run a block. -/
  | block (statements : List Statement) (position : Position)
  /-- To run a loop. -/
  | loop (binding : Binding) (source : Expr) (body : List Statement) (position : Position)
  /-- To evaluate an expression. -/
  | value (e : Expr) (fallback : Fallback)

namespace Call

/-- The state that a call leaves behind, whether it succeeds or fails. -/
def leave (m : Expansion) : Call → Expansion
  | block statements position => after (runBlock statements position) m
  | loop binding source body position => after (runLoop binding source body position) m
  | value e fallback => after (exprValue e fallback) m

/-- The number of scopes that a call may change: a block changes the innermost scope at most, a loop
and an expression change none. -/
def changes : Call → Nat
  | block _ _ => 1
  | loop _ _ _ _ | value _ _ => 0

/-- A call keeps all scopes but those it may change, and whatever else is kept. -/
theorem leave_keeps (call : Call) {m : Expansion} (hscopes : m.scopes ≠ []) :
    Keeps call.changes m (call.leave m) := by
  cases call with
  | block statements position =>
    exact block_framed (fun _ hscopes => runAll_since statements hscopes false) m hscopes
  | loop binding source body position =>
    exact loop_framed binding source position
      (fun _ hscopes => runAll_since body hscopes false) m hscopes
  | value e fallback => exact Framed.readOnly (exprValue_readOnly e fallback) m hscopes

end Call

/-- In a state that has a scope, every call keeps the limits, the depth, the number of scopes, the
scopes that it may not change and the finished variations, and adds only variations that begin with
the tiles under construction, whether it succeeds or fails. So do any number of calls in a row, of
which any may fail. -/
theorem calls_keep {m : Expansion} (hscopes : m.scopes ≠ []) :
    (∀ call : Call, Keeps call.changes m (call.leave m)) ∧
      ∀ (changed : Nat) (calls : List Call), (∀ call ∈ calls, call.changes ≤ changed) →
        Keeps changed m (calls.foldl Call.leave m) := by
  refine ⟨fun call => call.leave_keeps hscopes, fun changed calls => ?_⟩
  induction calls generalizing m with
  | nil => exact fun _ => .refl changed m
  | cons call calls ih =>
    intro hcalls
    have hfirst := (call.leave_keeps hscopes).mono (hcalls call (List.mem_cons_self ..))
    exact hfirst.trans (ih (hfirst.scopes_ne_nil hscopes)
      fun other hother => hcalls other (List.mem_cons_of_mem _ hother))

/-- The loop fails in its second pass, but the variation of its first pass stays and the block after
it finds the scopes as they were. -/
theorem calls_keep_failed_loop :
    let m : Expansion :=
      { Expansion.new {} with scopes := [outermostScope .empty], buffer := ["E"] }
    let loop : Call := .loop (.name "x") (.tuple [.number 1 ⟨1, 13⟩, .tuple [] ⟨1, 16⟩] ⟨1, 12⟩)
      [.call "single" [.identifier "x" ⟨1, 29⟩] ⟨1, 22⟩] ⟨1, 1⟩
    let block : Call := .block [.call "single" [.identifier "x" ⟨2, 8⟩] ⟨2, 1⟩] ⟨2, 1⟩
    Keeps 1 m ([loop, block].foldl Call.leave m) ∧
      ([loop, block].foldl Call.leave m).variations.toList.map Variation.tiles =
        [["E", "1"], ["E", "x"]] := by
  intro m loop block
  have hkeeps := (calls_keep (m := m) (List.cons_ne_nil _ _)).2 1 [loop, block]
    (by simp [loop, block, Call.changes])
  have htiles : ([loop, block].foldl Call.leave m).variations.toList.map Variation.tiles =
      [["E", "1"], ["E", "x"]] := by cbv
  exact ⟨hkeeps, htiles⟩

end Expansion

end HandTemplate
