import HandTemplate.Proofs.Expansion.Denotation
import HandTemplate.Proofs.Outcome

/-!
# Running a block gives what it denotes

An expansion keeps one buffer of tiles, takes away at the end of a block what the block has added to
it, and adds the tiles after a loop to variations that are finished already. The invariant
`Realizes` relates this to the hands of `Context.effects`: of the finished variations, those before
the block never change, and those since then end with every tile that the block goes on to make.
Main statement: `expand_eq_ok_iff`.
-/

namespace HandTemplate

open Outcome (bind_eq_ok pure_eq_ok map_eq_ok)

namespace Expansion

/-- Two steps succeed one after the other exactly when the second succeeds where the first ends. -/
theorem bind_apply_eq_ok {α β : Type} {step : Step α} {next : α → Step β} {m m'' : Expansion}
    {b : β} : (step >>= next) m = .ok b m'' ↔
      ∃ a m', step m = .ok a m' ∧ next a m' = .ok b m'' := by
  rw [bind_apply]
  cases step m with
  | error e m' => exact ⟨fun h => (nomatch h), fun ⟨_, _, h, _⟩ => (nomatch h)⟩
  | ok a m' => exact ⟨fun h => ⟨a, m', rfl, h⟩, fun ⟨_, _, h, hb⟩ => by cases h; exact hb⟩

/-- A step that only reads succeeds exactly when its outcome is a value. -/
theorem settle_eq_ok {α : Type} {m m' : Expansion} {r : Except ExpansionFault α} {a : α} :
    settle m r = .ok a m' ↔ r = .ok a ∧ m' = m := by
  cases r with
  | error e => exact ⟨fun h => (nomatch h), fun ⟨h, _⟩ => (nomatch h)⟩
  | ok b => exact ⟨fun h => by cases h; exact ⟨rfl, rfl⟩, fun ⟨h, hm⟩ => by cases h; rw [hm]; rfl⟩

/-- What needs no state succeeds with its result and leaves the state as it is. -/
theorem ofExcept_eq_ok {α : Type} {r : Except ExpansionFault α} {a : α} {m m' : Expansion} :
    ofExcept r m = .ok a m' ↔ r = .ok a ∧ m' = m := by
  have hsettle : ofExcept r m = settle m r := by cases r <;> rfl
  rw [hsettle, settle_eq_ok]

/-- A check succeeds exactly if the limit allows the number. -/
theorem checkCount_eq_ok {what : String} {found : Nat} {config : Config} {position : Position}
    {u : Unit} : checkCount what found config position = .ok u ↔ found ≤ config.maxItems := by
  unfold checkCount
  split
  · next h => exact ⟨fun h => (nomatch h), fun hle => absurd hle (by omega)⟩
  · next h => exact ⟨fun _ => by omega, fun _ => rfl⟩

/-- A variation with more tiles at its end. -/
def extend (tiles : List String) (v : Variation) : Variation := { v with tiles := v.tiles ++ tiles }

/-- Variations stay as they are without further tiles. -/
theorem map_extend_nil (vs : List Variation) : vs.map (extend []) = vs := by
  have hid : extend [] = id := funext fun v => by simp [extend]
  rw [hid, List.map_id]

/-- Tiles that are added twice are added one after the other. -/
theorem map_extend_append (first second : List String) (vs : List Variation) :
    (vs.map (extend first)).map (extend second) = vs.map (extend (first ++ second)) := by
  simp [extend]

/-- Of the variations `kept ++ changed`, only the last ones get more tiles. -/
theorem extendFrom_append (tiles : List String) (kept changed : List Variation) :
    extendFrom kept.length tiles (kept ++ changed).toArray =
      (kept ++ changed.map (extend tiles)).toArray := by
  have hcount : (kept ++ changed).toArray.size - kept.length = changed.length := by simp
  unfold extendFrom
  rw [hcount]
  -- By induction on the variations that change: one that has got its tiles joins those kept.
  clear hcount
  induction changed generalizing kept with
  | nil => simp
  | cons v changed ih =>
    have hmodify : (kept ++ v :: changed).toArray.modify kept.length (extend tiles) =
        ((kept ++ [extend tiles v]) ++ changed).toArray := by
      simp [List.modify_eq_take_drop]
    have htail := ih (kept ++ [extend tiles v])
    rw [List.length_append, List.length_singleton] at htail
    rw [List.length_cons, List.range'_succ, List.foldl_cons]
    change List.foldl _ ((kept ++ v :: changed).toArray.modify kept.length (extend tiles)) _ = _
    rw [hmodify, htail]
    simp

end Expansion

namespace Context

variable (name description : Option String)

/-- The state of an expansion in a context: the tiles of the variation under construction and the
finished variations are given. -/
def state (c : Context) (buffer : List String) (finished : List Variation) : Expansion :=
  ⟨c.frame :: c.outer, c.config, c.depth, buffer, finished.toArray, name, description⟩

/-- A hand as a finished variation. -/
def titled (tiles : List String) : Variation := ⟨tiles, name, description⟩

/-- The state after statements of a block contributed `e`: of the finished variations, `changed` are
those since the block began. -/
def stateAfter (c : Context) (buffer : List String) (kept changed : List Variation) (e : Effect) :
    Expansion :=
  { c with frame := e.frame }.state name description (buffer ++ e.tiles)
    (kept ++ (changed.map (Expansion.extend e.tiles) ++ e.hands.map (titled name description)))

/-- A step does to a state of a block what is denoted: it succeeds exactly if a contribution is
denoted whose hands fit into the limit, and then adds that contribution to the state. -/
def Realizes (c : Context) (buffer : List String) (kept changed : List Variation)
    (step : Step Unit) (denoted : Except ExpansionFault Effect) : Prop :=
  ∀ m, step (c.state name description buffer (kept ++ changed)) = .ok () m ↔
    ∃ e, denoted = .ok e ∧
      kept.length + changed.length + e.hands.length ≤ c.config.maxItems ∧
      m = c.stateAfter name description buffer kept changed e

/-- What a step sees of the state of a context is what the context says. -/
@[simp] theorem state_view (c : Context) (buffer : List String) (finished : List Variation) :
    (c.state name description buffer finished).view = c.view := rfl

variable {name description}

/-- Binding a value changes the innermost scope only. -/
theorem assign_state (binding : Binding) (value : Value) (position : Position) (c : Context)
    (buffer : List String) (finished : List Variation) :
    Expansion.assign binding value position (c.state name description buffer finished) =
      match bind binding value position c.frame with
      | .ok frame => .ok () ({ c with frame }.state name description buffer finished)
      | .error e => .error e (c.state name description buffer finished) := by
  -- Several names are bound one after the other, in the frame as in the state.
  have hfold : ∀ (entries : List (String × Value)) (frame : Scope),
      entries.foldl (fun (m : Expansion) (entry : String × Value) => m.define entry.1 entry.2)
        ({ c with frame }.state name description buffer finished) =
      { c with
        frame := entries.foldl
          (fun (frame : Scope) (entry : String × Value) => frame.insert entry.1 entry.2)
          frame }.state name description buffer finished := by
    intro entries
    induction entries with
    | nil => intro frame; rfl
    | cons entry entries ih => intro frame; exact ih (frame.insert entry.1 entry.2)
  cases binding with
  | name n => rfl
  | tuple names =>
    cases value with
    | list items =>
      by_cases hlength : items.length = names.length
      · simp only [Expansion.assign, bind, if_pos hlength]
        exact congrArg _ (hfold (names.zip items) c.frame)
      · simp only [Expansion.assign, bind, if_neg hlength]
        rfl
    | _ => rfl

/-- Tiles go to the variation under construction and, if a loop of the block has run before, to the
variations that were finished since the block began. -/
theorem addTiles_state (c : Context) (tiles buffer : List String) (kept changed : List Variation)
    (looped : Bool) (hlooped : looped = false → changed = []) :
    Expansion.addTiles tiles kept.length looped
        (c.state name description buffer (kept ++ changed)) =
      .ok () (c.state name description (buffer ++ tiles)
        (kept ++ changed.map (Expansion.extend tiles))) := by
  unfold Expansion.addTiles
  by_cases hadd : (looped && !tiles.isEmpty) = true
  · rw [if_pos hadd]
    unfold state
    rw [← Expansion.extendFrom_append]
    rfl
  · rw [if_neg hadd]
    -- Nothing is added, but then no variation has to change either.
    have hsame : changed.map (Expansion.extend tiles) = changed := by
      cases looped with
      | false => rw [hlooped rfl]; rfl
      | true =>
        have hempty : tiles = [] := by simpa using hadd
        rw [hempty, Expansion.map_extend_nil]
    rw [hsame]
    rfl

/-- A variation is finished exactly if there is room for one more. -/
theorem finish_eq_ok {c : Context} {position : Position} {buffer : List String}
    {finished : List Variation} {m : Expansion} :
    Expansion.finish position (c.state name description buffer finished) = .ok () m ↔
      finished.length + 1 ≤ c.config.maxItems ∧
        m = c.state name description buffer (finished ++ [titled name description buffer]) := by
  unfold Expansion.finish
  rw [Expansion.bind_apply, Expansion.get_apply]
  dsimp only
  rw [Expansion.bind_apply_eq_ok]
  constructor
  -- The check of the number and the push are all that finishing does.
  · rintro ⟨_, _, hcheck, hpush⟩
    obtain ⟨hroom, rfl⟩ := Expansion.ofExcept_eq_ok.1 hcheck
    refine ⟨by simpa [state] using Expansion.checkCount_eq_ok.1 hroom, ?_⟩
    cases hpush
    simp [state, titled]
  · rintro ⟨hroom, rfl⟩
    refine ⟨(), _, Expansion.ofExcept_eq_ok.2 ⟨Expansion.checkCount_eq_ok.2 ?_, rfl⟩, ?_⟩
    · simpa [state] using hroom
    · change EStateM.Result.ok () _ = _
      simp [state, titled]

/-- A walk over a range takes the same steps as a walk over the list of its integers. -/
theorem forRange_eq (step : Value → Step Unit) (count : Nat) (first : Int) :
    Expansion.forRange step count first = Expansion.forValues step
      ((List.range count).map fun i : Nat => .integer (Int64.ofInt (first + i))) := by
  -- By induction on the count; the integer at a place of what is left is that at the next place of
  -- the whole.
  induction count generalizing first with
  | zero => rfl
  | succ count ih =>
    have hshift : (fun i : Nat => Value.integer (Int64.ofInt (first + i))) ∘ Nat.succ =
        fun i : Nat => Value.integer (Int64.ofInt (first + 1 + i)) := by
      funext i
      have hsum : first + ((i.succ : Nat) : Int) = first + 1 + i := by omega
      simp only [Function.comp_apply, hsum]
    rw [List.range_succ_eq_map, List.map_cons, List.map_map, hshift]
    simp only [Expansion.forRange, Expansion.forValues, ih]
    simp

/-- The value of a range is the list of its integers, unless they are too many. -/
theorem value_range (c : Context) (first last : Int64) (position : Position) :
    c.value (.range first last position) = Builtin.interval first last c.config position := by
  unfold value Expansion.View.run
  have hconfig : c.view.state.config = c.config := rfl
  rw [Expansion.exprValue_interval, hconfig]
  cases Builtin.interval first last c.config position <;> rfl

/-- A loop runs its step for the elements of its source, in a state where the source has them. -/
theorem forEach_eq_ok {c : Context} {source : Expr} {step : Value → Step Unit}
    {buffer : List String} {finished : List Variation} {m : Expansion} :
    Expansion.forEach source step (c.state name description buffer finished) = .ok () m ↔
      ∃ values, c.elements source = .ok values ∧
        Expansion.forValues step values (c.state name description buffer finished) = .ok () m := by
  cases source with
  | range first last p =>
    simp only [Expansion.forEach, elements, value_range, Builtin.interval, bind_eq_ok]
    rw [Expansion.bind_apply, Expansion.get_apply]
    dsimp only
    rw [Expansion.bind_apply_eq_ok]
    simp only [Expansion.ofExcept_eq_ok, pure_eq_ok]
    -- A range is walked without building its list, after the same check of its size.
    have hvalues : (Number.range first last).map Value.integer =
        (List.range (Number.count first last)).map
          fun i : Nat => .integer (Int64.ofInt (first.toInt + i)) := by
      simp [Number.range]
    constructor
    · rintro ⟨_, _, ⟨hcheck, rfl⟩, hrun⟩
      rw [forRange_eq, ← hvalues] at hrun
      exact ⟨_, ⟨_, ⟨_, hcheck, rfl⟩, rfl⟩, hrun⟩
    · rintro ⟨values, ⟨value, ⟨_, hcheck, rfl⟩, hlist⟩, hrun⟩
      cases hlist
      refine ⟨(), _, ⟨hcheck, rfl⟩, ?_⟩
      rw [forRange_eq, ← hvalues]
      exact hrun
  | _ =>
    -- Any other source is evaluated to the list of its elements first.
    simp only [Expansion.forEach, elements, Expansion.bind_apply_eq_ok, bind_eq_ok,
      Expansion.exprValue_eq, Expansion.settle_eq_ok, state_view]
    constructor
    · rintro ⟨value, _, ⟨hvalue, rfl⟩, hrun⟩
      cases helements : value.elements? with
      | none => rw [helements] at hrun; cases hrun
      | some values =>
        rw [helements] at hrun
        exact ⟨values, ⟨value, hvalue, by rw [helements]; rfl⟩, hrun⟩
    · rintro ⟨values, ⟨value, hvalue, hvalues⟩, hrun⟩
      refine ⟨value, _, ⟨hvalue, rfl⟩, ?_⟩
      cases helements : value.elements? with
      | none => rw [helements] at hvalues; cases hvalues
      | some _ => rw [helements] at hvalues; cases hvalues; exact hrun

/-- Statements that are no loops contribute no hands. -/
theorem effect_hands_eq_nil {s : Statement} {c : Context} {before : List String} {e : Effect}
    (hloop : s.isLoop = false) (h : effect s c before = .ok e) : e.hands = [] := by
  cases s with
  | assign target value p =>
    simp only [effect, bind_eq_ok, pure_eq_ok] at h
    obtain ⟨_, _, _, _, rfl⟩ := h
    rfl
  | foreach binding source body p => cases hloop
  | call name arguments p =>
    simp only [effect, bind_eq_ok, pure_eq_ok] at h
    obtain ⟨_, _, rfl⟩ := h
    rfl

/-- Statements without a loop contribute no hands. -/
theorem effects_hands_eq_nil {statements : List Statement} {c : Context} {before : List String}
    {e : Effect} (hloop : statements.any Statement.isLoop = false)
    (h : effects statements c before = .ok e) : e.hands = [] := by
  -- By induction on the statements, with the hands of the first one before those of the others.
  induction statements generalizing c before e with
  | nil =>
    simp only [effects, pure_eq_ok] at h
    rw [← h]
  | cons s statements ih =>
    simp only [effects, bind_eq_ok, pure_eq_ok] at h
    obtain ⟨first, hfirst, others, hothers, rfl⟩ := h
    rw [List.any_cons, Bool.or_eq_false_iff] at hloop
    simp only [Effect.andThen, effect_hands_eq_nil hloop.1 hfirst, ih hloop.2 hothers,
      List.map_nil, List.append_nil]

/-- Taking tiles away from the buffer always succeeds. -/
theorem restore_eq_ok {buffer : List String} {m m' : Expansion} :
    (modify fun m => { m with buffer } : Step Unit) m = .ok () m' ↔ m' = { m with buffer } :=
  ⟨fun h => by cases h; rfl, fun h => by rw [h]; rfl⟩

/-- At the end of a block without loops, the tiles in the buffer become a variation unless there are
none, and then the tiles of the block are taken away. -/
theorem leafEnd_eq_ok {c : Context} {position : Position} {buffer after : List String}
    {finished : List Variation} {m : Expansion} (hroom : finished.length ≤ c.config.maxItems) :
    (do
      unless (← get).buffer.isEmpty do Expansion.finish position
      modify fun m => { m with buffer } : Step Unit)
        (c.state name description after finished) = .ok () m ↔
      finished.length + (if after.isEmpty then [] else [after]).length ≤ c.config.maxItems ∧
        m = c.state name description buffer
          (finished ++ (if after.isEmpty then [] else [after]).map (titled name description)) := by
  rw [Expansion.bind_apply, Expansion.get_apply]
  -- No tiles make no hand; otherwise the hand needs a place below the limit.
  cases hempty : after.isEmpty with
  | true =>
    simp only [state, hempty, if_true, restore_eq_ok, List.length_nil, List.map_nil,
      List.append_nil]
    exact ⟨fun h => ⟨hroom, h⟩, fun h => h.2⟩
  | false =>
    simp only [state, hempty, Bool.false_eq_true, if_false, List.length_singleton, List.map_cons,
      List.map_nil]
    rw [Expansion.bind_apply_eq_ok]
    constructor
    · rintro ⟨_, _, hfinish, hrestore⟩
      obtain ⟨hcount, rfl⟩ := finish_eq_ok.1 hfinish
      exact ⟨hcount, restore_eq_ok.1 hrestore⟩
    · rintro ⟨hcount, rfl⟩
      exact ⟨(), _, finish_eq_ok.2 ⟨hcount, rfl⟩, restore_eq_ok.2 rfl⟩

/-- A block adds its hands to the finished variations and leaves the buffer as it was, if its
statements do what they denote. -/
theorem block_eq_ok {statements : List Statement} {c : Context} {buffer : List String}
    {finished : List Variation} (position : Position) (run : Nat → Step Unit) (m : Expansion)
    (hrun : Realizes name description c buffer finished [] (run finished.length)
      (effects statements c buffer))
    (hroom : finished.length ≤ c.config.maxItems) :
    Expansion.block statements position run (c.state name description buffer finished) = .ok () m ↔
      ∃ e, effects statements c buffer = .ok e ∧
        finished.length + (blockHands statements buffer e).length ≤ c.config.maxItems ∧
        m = { c with frame := e.frame }.state name description buffer
          (finished ++ (blockHands statements buffer e).map (titled name description)) := by
  have hsize : (c.state name description buffer finished).variations.size = finished.length := by
    simp [state]
  have hbuffer : (c.state name description buffer finished).buffer = buffer := rfl
  unfold Realizes at hrun
  simp only [List.append_nil, List.length_nil, Nat.add_zero, stateAfter, List.map_nil,
    List.nil_append] at hrun
  unfold Expansion.block
  rw [Expansion.bind_apply, Expansion.get_apply]
  dsimp only
  rw [hsize, hbuffer, Expansion.bind_apply_eq_ok]
  simp only [hrun]
  cases hloop : statements.any Statement.isLoop with
  | true =>
    -- The loops have finished all hands of the block already.
    simp only [Bool.not_true, Bool.false_eq_true, if_false, restore_eq_ok, blockHands, hloop,
      if_true]
    constructor
    · rintro ⟨_, _, ⟨e, heffects, hcount, rfl⟩, rfl⟩
      exact ⟨e, heffects, hcount, rfl⟩
    · rintro ⟨e, heffects, hcount, rfl⟩
      exact ⟨(), _, ⟨e, heffects, hcount, rfl⟩, rfl⟩
  | false =>
    -- There are no hands yet; the buffer makes the only one.
    simp only [Bool.not_false, if_true, blockHands, hloop, Bool.false_eq_true, if_false]
    constructor
    · rintro ⟨_, _, ⟨e, heffects, hcount, rfl⟩, hend⟩
      rw [effects_hands_eq_nil hloop heffects, List.map_nil, List.append_nil] at hend
      exact ⟨e, heffects, (leafEnd_eq_ok (c := { c with frame := e.frame }) hroom).1 hend⟩
    · rintro ⟨e, heffects, hend⟩
      have hnone := effects_hands_eq_nil hloop heffects
      refine ⟨(), _, ⟨e, heffects, by rw [hnone]; exact hroom, rfl⟩, ?_⟩
      rw [hnone, List.map_nil, List.append_nil]
      exact (leafEnd_eq_ok (c := { c with frame := e.frame }) hroom).2 hend

/-- A step in a scope of its own succeeds as it does there, and its scope is closed. -/
theorem inScope_eq_ok {α : Type} {step : Step α} {m m' : Expansion} {a : α} :
    Expansion.inScope step m = .ok a m' ↔
      ∃ m'', step m.openScope = .ok a m'' ∧ m' = m''.closeScope := by
  unfold Expansion.inScope
  cases step m.openScope with
  | error e m'' => exact ⟨fun h => (nomatch h), fun ⟨_, h, _⟩ => (nomatch h)⟩
  | ok b m'' =>
    exact ⟨fun h => by cases h; exact ⟨m'', rfl, rfl⟩, fun ⟨_, h, hm⟩ => by cases h; rw [hm]⟩

/-- A step one level deeper succeeds exactly if the limit allows the level and the step succeeds. -/
theorem nest_eq_ok {α : Type} {position : Position} {step : Step α} {c : Context}
    {buffer : List String} {finished : List Variation} {m : Expansion} {a : α} :
    Expansion.nest position step (c.state name description buffer finished) = .ok a m ↔
      ∃ inner, c.inLoop position = .ok inner ∧ ∃ m',
        step (inner.state name description buffer finished) = .ok a m' ∧
          m = { m' with depth := m'.depth - 1 } := by
  have hinner : { c.state name description buffer finished with
      depth := (c.state name description buffer finished).depth + 1 } =
      ({ c with depth := c.depth + 1 } : Context).state name description buffer finished := rfl
  have hlimit : (c.state name description buffer finished).config.maxDepth ≤
      (c.state name description buffer finished).depth ↔ c.config.maxDepth ≤ c.depth := Iff.rfl
  unfold Expansion.nest inLoop
  rw [hinner]
  simp only [hlimit]
  -- Where the limit does not allow the level there is no inner context, and nothing is run.
  split
  · exact ⟨fun h => (nomatch h), fun ⟨_, h, _⟩ => (nomatch h)⟩
  · cases hstep : step ({ c with depth := c.depth + 1 }.state name description buffer finished) with
    | error e m' =>
      constructor
      · exact fun h => (nomatch h)
      · rintro ⟨_, hinner, m'', hok, -⟩
        cases hinner
        rw [hstep] at hok
        cases hok
    | ok value m' =>
      constructor
      · intro h
        cases h
        exact ⟨_, rfl, m', hstep, rfl⟩
      · rintro ⟨_, hinner, m'', hok, rfl⟩
        cases hinner
        rw [hstep] at hok
        cases hok
        rfl

/-- The hands of a loop's body for one element of the source. -/
def elementHands (c : Context) (binding : Binding) (body : List Statement) (position : Position)
    (before : List String) (item : Value) : Except ExpansionFault (List (List String)) := do
  let e ← effects body (← c.forElement binding position item) before
  return blockHands body before e

section Loop

variable {binding : Binding} {body : List Statement} {position : Position} {buffer : List String}
  (hbody : ∀ (c : Context) (finished : List Variation), finished.length ≤ c.config.maxItems →
    Realizes name description c buffer finished []
      (Expansion.runAll body finished.length false) (effects body c buffer))

include hbody

/-- One turn of a loop adds the hands of its body. -/
theorem turn_eq_ok {c : Context} {item : Value} {finished : List Variation} {m : Expansion}
    (hroom : finished.length ≤ c.config.maxItems) :
    Expansion.inScope (do
        Expansion.assign binding item position
        Expansion.block body position fun first => Expansion.runAll body first false)
          (c.state name description buffer finished) = .ok () m ↔
      ∃ hs, c.elementHands binding body position buffer item = .ok hs ∧
        finished.length + hs.length ≤ c.config.maxItems ∧
        m = c.state name description buffer (finished ++ hs.map (titled name description)) := by
  have hopen : (c.state name description buffer finished).openScope =
      ({ c with frame := Record.empty, outer := c.frame :: c.outer } : Context).state
        name description buffer finished := rfl
  rw [inScope_eq_ok, hopen]
  simp only [Expansion.bind_apply_eq_ok, assign_state, elementHands, forElement, bind_eq_ok,
    pure_eq_ok]
  cases hbound : bind binding item position Record.empty with
  | error e =>
    constructor
    · rintro ⟨_, ⟨_, _, hassign, _⟩, _⟩
      cases hassign
    · rintro ⟨_, ⟨_, ⟨_, hframe, _⟩, _⟩, _⟩
      cases hframe
  | ok frame =>
    -- The body is a block whose innermost scope holds the binding alone.
    have hblock : ∀ m, _ ↔ _ := fun m =>
      block_eq_ok (c := { c with frame, outer := c.frame :: c.outer }) position
        (fun first => Expansion.runAll body first false) m (hbody _ finished hroom) hroom
    constructor
    · rintro ⟨_, ⟨_, _, hassign, hrun⟩, rfl⟩
      cases hassign
      obtain ⟨e, heffects, hcount, rfl⟩ := (hblock _).1 hrun
      exact ⟨_, ⟨_, ⟨frame, rfl, rfl⟩, e, heffects, rfl⟩, hcount, rfl⟩
    · rintro ⟨_, ⟨_, ⟨_, hframe, rfl⟩, e, heffects, rfl⟩, hcount, rfl⟩
      cases hframe
      exact ⟨_, ⟨(), _, rfl, (hblock _).2 ⟨e, heffects, hcount, rfl⟩⟩, rfl⟩

/-- A loop adds the hands of its body for all elements of its source. -/
theorem turns_eq_ok (binding : Binding) (position : Position) {c : Context} (values : List Value)
    {finished : List Variation} (m : Expansion) (hroom : finished.length ≤ c.config.maxItems) :
    Expansion.forValues (fun item => Expansion.inScope do
        Expansion.assign binding item position
        Expansion.block body position fun first => Expansion.runAll body first false)
          values (c.state name description buffer finished) = .ok () m ↔
      ∃ hss, values.mapM (c.elementHands binding body position buffer) = .ok hss ∧
        finished.length + hss.flatten.length ≤ c.config.maxItems ∧
        m = c.state name description buffer
          (finished ++ hss.flatten.map (titled name description)) := by
  -- The hands of the first turn are among the finished variations when the others are taken.
  induction values generalizing finished with
  -- Without elements there are no hands.
  | nil =>
    simp only [Expansion.forValues, List.mapM_nil, pure_eq_ok]
    constructor
    · intro h
      cases h
      exact ⟨[], rfl, by simpa using hroom, by simp⟩
    · rintro ⟨_, rfl, _, rfl⟩
      simp
      rfl
  | cons item values ih =>
    rw [Expansion.forValues, Expansion.bind_apply_eq_ok, List.mapM_cons]
    simp only [turn_eq_ok hbody hroom, bind_eq_ok, pure_eq_ok]
    -- The hands of the first turn and of all others fit exactly if those of the others fit behind
    -- the first ones.
    constructor
    · rintro ⟨_, _, ⟨hs, hhs, hcount, rfl⟩, hrun⟩
      obtain ⟨hss, hhss, hcounts, rfl⟩ := (ih (by simpa using hcount)).1 hrun
      refine ⟨_, ⟨hs, hhs, hss, hhss, rfl⟩, ?_, ?_⟩
      · simpa [Nat.add_assoc] using hcounts
      · simp
    · rintro ⟨_, ⟨hs, hhs, hss, hhss, rfl⟩, hcounts, rfl⟩
      simp only [List.flatten_cons, List.length_append] at hcounts
      have hcount : finished.length + hs.length ≤ c.config.maxItems := by omega
      refine ⟨(), _, ⟨hs, hhs, hcount, rfl⟩, (ih (by simpa using hcount)).2 ⟨hss, hhss, ?_, ?_⟩⟩
      · simp only [List.length_append, List.length_map]
        omega
      · simp

end Loop

section Statements

variable {c : Context} {buffer : List String} {kept changed : List Variation}

/-- An assignment does what is denoted by it. -/
theorem assign_realizes (target : Binding) (value : Expr) (position : Position)
    (hroom : kept.length + changed.length ≤ c.config.maxItems) :
    Realizes name description c buffer kept changed
      (do Expansion.assign target (← Expansion.exprValue value .nothing) position)
      (effect (.assign target value position) c buffer) := by
  intro m
  simp only [effect, Expansion.bind_apply_eq_ok, bind_eq_ok, pure_eq_ok, Expansion.exprValue_eq,
    Expansion.settle_eq_ok, state_view]
  -- The value is that of the context, and binding it gives the frame of the effect.
  constructor
  · rintro ⟨v, _, ⟨hvalue, rfl⟩, hassign⟩
    rw [assign_state] at hassign
    split at hassign
    · next frame hframe =>
      cases hassign
      exact ⟨_, ⟨v, hvalue, frame, hframe, rfl⟩, hroom, by
        simp [stateAfter, Expansion.map_extend_nil]⟩
    · cases hassign
  · rintro ⟨_, ⟨v, hvalue, frame, hframe, rfl⟩, _, rfl⟩
    refine ⟨v, _, ⟨hvalue, rfl⟩, ?_⟩
    rw [assign_state, hframe]
    simp [stateAfter, Expansion.map_extend_nil]

/-- A call does what is denoted by it. -/
theorem call_realizes (called : String) (arguments : List Expr) (position : Position)
    {looped : Bool} (hlooped : looped = false → changed = [])
    (hroom : kept.length + changed.length ≤ c.config.maxItems) :
    Realizes name description c buffer kept changed
      (do
        match ← Expansion.callValue called arguments position with
        | .group g => Expansion.addTiles g.tiles kept.length looped
        | _ => pure ())
      (effect (.call called arguments position) c buffer) := by
  intro m
  simp only [effect, callTiles, Expansion.bind_apply_eq_ok, bind_eq_ok, pure_eq_ok,
    Expansion.callValue_eq, Expansion.settle_eq_ok, state_view]
  -- Only a group adds tiles; any other value leaves the state as it is.
  constructor
  · rintro ⟨v, _, ⟨hvalue, rfl⟩, hadd⟩
    cases v with
    | group g =>
      change Expansion.addTiles g.tiles kept.length looped _ = _ at hadd
      rw [addTiles_state c g.tiles buffer kept changed looped hlooped] at hadd
      cases hadd
      exact ⟨_, ⟨_, ⟨_, hvalue, rfl⟩, rfl⟩, hroom, by simp [stateAfter]⟩
    | _ =>
      cases hadd
      exact ⟨_, ⟨_, ⟨_, hvalue, rfl⟩, rfl⟩, hroom, by simp [stateAfter, Expansion.map_extend_nil]⟩
  · rintro ⟨_, ⟨tiles, ⟨v, hvalue, htiles⟩, rfl⟩, _, rfl⟩
    refine ⟨v, _, ⟨hvalue, rfl⟩, ?_⟩
    cases v with
    | group g =>
      cases htiles
      dsimp only
      rw [addTiles_state c g.tiles buffer kept changed looped hlooped]
      simp [stateAfter]
    | _ =>
      cases htiles
      simp [stateAfter, Expansion.map_extend_nil]
      rfl

/-- The inside of a loop is one level deeper, if there is a level left. -/
theorem inLoop_eq_ok {position : Position} {inner : Context} :
    c.inLoop position = .ok inner ↔
      c.depth < c.config.maxDepth ∧ inner = { c with depth := c.depth + 1 } := by
  unfold inLoop
  split
  · exact ⟨fun h => (nomatch h), fun ⟨h, _⟩ => absurd h (by omega)⟩
  · exact ⟨fun h => by cases h; exact ⟨by omega, rfl⟩, fun ⟨_, h⟩ => by rw [h]⟩

/-- A loop does what is denoted by it if its body does. -/
theorem foreach_realizes (binding : Binding) (source : Expr) {body : List Statement}
    (position : Position)
    (hbody : ∀ (c : Context) (finished : List Variation), finished.length ≤ c.config.maxItems →
      Realizes name description c buffer finished []
        (Expansion.runAll body finished.length false) (effects body c buffer))
    (hroom : kept.length + changed.length ≤ c.config.maxItems) :
    Realizes name description c buffer kept changed
      (Expansion.nest position do
        Expansion.forEach source fun item => Expansion.inScope do
          Expansion.assign binding item position
          Expansion.block body position fun first => Expansion.runAll body first false)
      (effect (.foreach binding source body position) c buffer) := by
  intro m
  -- For the loop's body, the variations of the block around it are kept ones as well.
  have hlength : (kept ++ changed).length = kept.length + changed.length := List.length_append
  have hroom' : (kept ++ changed).length ≤ c.config.maxItems := by
    rw [hlength]
    exact hroom
  have hturns : ∀ values m', _ ↔ _ := fun values m' =>
    turns_eq_ok (c := { c with depth := c.depth + 1 }) hbody binding position values m' hroom'
  have heffect : effect (.foreach binding source body position) c buffer = (do
      let inner ← c.inLoop position
      let values ← inner.elements source
      let hands ← values.mapM (inner.elementHands binding body position buffer)
      return ⟨c.frame, [], hands.flatten⟩) := rfl
  -- The level, the source and the turns come one after the other in both.
  simp only [nest_eq_ok, forEach_eq_ok, heffect, bind_eq_ok, pure_eq_ok, inLoop_eq_ok]
  constructor
  · rintro ⟨_, ⟨hdepth, rfl⟩, m', ⟨values, hvalues, hrun⟩, rfl⟩
    obtain ⟨hss, hhss, hcount, rfl⟩ := (hturns values m').1 hrun
    refine ⟨_, ⟨_, ⟨hdepth, rfl⟩, values, hvalues, hss, hhss, rfl⟩, ?_, ?_⟩
    · rw [← hlength]
      exact hcount
    · simp [stateAfter, Expansion.map_extend_nil, state]
  · rintro ⟨_, ⟨_, ⟨hdepth, rfl⟩, values, hvalues, hss, hhss, rfl⟩, hcount, rfl⟩
    have hcount' : (kept ++ changed).length + hss.flatten.length ≤ c.config.maxItems := by
      rw [hlength]
      exact hcount
    refine ⟨_, ⟨hdepth, rfl⟩, _,
      ⟨values, hvalues, (hturns values _).2 ⟨hss, hhss, hcount', rfl⟩⟩, ?_⟩
    simp [stateAfter, Expansion.map_extend_nil, state]

/-- Two steps that do what they denote do so one after the other. The second one adds its tiles to
the variations that the first one has finished, too. -/
theorem Realizes.andThen {first others : Step Unit} {denoted : Except ExpansionFault Effect}
    {next : Effect → Except ExpansionFault Effect}
    (hfirst : Realizes name description c buffer kept changed first denoted)
    (hothers : ∀ e, denoted = .ok e →
      kept.length + changed.length + e.hands.length ≤ c.config.maxItems →
      Realizes name description { c with frame := e.frame } (buffer ++ e.tiles) kept
        (changed.map (Expansion.extend e.tiles) ++ e.hands.map (titled name description))
        others (next e)) :
    Realizes name description c buffer kept changed (do first; others) (do
      let e ← denoted
      return e.andThen (← next e)) := by
  intro m
  have hlength : ∀ e : Effect, (changed.map (Expansion.extend e.tiles) ++
      e.hands.map (titled name description)).length = changed.length + e.hands.length := by
    simp
  -- Extending by the tiles of the first step and then by those of the second extends by both.
  have hstate : ∀ e o : Effect, stateAfter name description { c with frame := e.frame }
      (buffer ++ e.tiles) kept (changed.map (Expansion.extend e.tiles) ++
        e.hands.map (titled name description)) o =
      stateAfter name description c buffer kept changed (e.andThen o) := by
    intro e o
    have htitled : (e.hands.map (titled name description)).map (Expansion.extend o.tiles) =
        (e.hands.map (· ++ o.tiles)).map (titled name description) := by
      rw [List.map_map, List.map_map]
      rfl
    simp only [stateAfter, Effect.andThen, List.map_append, Expansion.map_extend_append, htitled,
      List.append_assoc]
  -- The hands of both steps are counted together, so that they fit exactly if those of the second
  -- step fit behind the others.
  have hcounts : ∀ e o : Effect, (e.andThen o).hands.length = e.hands.length + o.hands.length := by
    simp [Effect.andThen]
  simp only [Expansion.bind_apply_eq_ok, bind_eq_ok, pure_eq_ok]
  constructor
  · rintro ⟨_, m', hrun, hrest⟩
    obtain ⟨e, he, hcount, rfl⟩ := (hfirst m').1 hrun
    obtain ⟨o, ho, hcount', rfl⟩ := (hothers e he hcount m).1 hrest
    rw [hlength] at hcount'
    dsimp only at hcount'
    refine ⟨_, ⟨e, he, o, ho, rfl⟩, ?_, hstate e o⟩
    rw [hcounts]
    omega
  · rintro ⟨_, ⟨e, he, o, ho, rfl⟩, hcount, rfl⟩
    rw [hcounts] at hcount
    have hcount' : kept.length + changed.length + e.hands.length ≤ c.config.maxItems := by omega
    refine ⟨(), _, (hfirst _).2 ⟨e, he, hcount', rfl⟩, ?_⟩
    refine (hothers e he hcount' _).2 ⟨o, ho, ?_, (hstate e o).symm⟩
    rw [hlength]
    dsimp only
    omega

end Statements

mutual

/-- Running a statement does what the statement denotes. -/
theorem run_realizes : (s : Statement) → {c : Context} → {buffer : List String} →
    {kept changed : List Variation} → {looped : Bool} → (looped = false → changed = []) →
    kept.length + changed.length ≤ c.config.maxItems →
    Realizes name description c buffer kept changed (Expansion.run s kept.length looped)
      (effect s c buffer)
  | .assign target value p, _, _, _, _, _, _, hroom => assign_realizes target value p hroom
  | .foreach binding source body p, _, _, _, _, _, _, hroom =>
    foreach_realizes binding source p
      (fun _ _ hroom => runAll_realizes body (fun _ => rfl) hroom) hroom
  | .call called arguments p, _, _, _, _, _, hlooped, hroom =>
    call_realizes called arguments p hlooped hroom

/-- Running statements does what the statements denote. -/
theorem runAll_realizes : (statements : List Statement) → {c : Context} → {buffer : List String} →
    {kept changed : List Variation} → {looped : Bool} → (looped = false → changed = []) →
    kept.length + changed.length ≤ c.config.maxItems →
    Realizes name description c buffer kept changed
      (Expansion.runAll statements kept.length looped) (effects statements c buffer)
  | [], c, buffer, kept, changed, looped, _, hroom => by
    intro m
    simp only [Expansion.runAll, effects, pure_eq_ok]
    constructor
    · intro h
      cases h
      exact ⟨_, rfl, hroom, by simp [stateAfter, Expansion.map_extend_nil]⟩
    · rintro ⟨_, rfl, _, rfl⟩
      simp [stateAfter, Expansion.map_extend_nil]
      rfl
  | s :: statements, c, buffer, kept, changed, looped, hlooped, hroom => by
    refine (run_realizes s hlooped hroom).andThen fun e he hcount => ?_
    refine runAll_realizes statements (fun hnone => ?_) ?_
    -- If no loop has run after the first statement either, there is no hand to change.
    · rw [Bool.or_eq_false_iff] at hnone
      rw [hlooped hnone.1, effect_hands_eq_nil hnone.2 he]
      rfl
    · simpa [Nat.add_assoc] using hcount

end

end Context

open Context in
/-- The expansion of a program gives variations exactly if its statements denote hands, no more than
the limit allows, and these hands are then the variations in the same order, each under the name and
description that the metadata gives. -/
theorem Program.expand_eq_ok_iff (program : Program) (config : Config) (vs : List Variation) :
    program.expand config = .ok vs ↔
      ∃ hs, (ofProgram program config).hands program.body [] = .ok hs ∧
        hs.length ≤ config.maxItems ∧
        vs = hs.map fun tiles =>
          ⟨tiles, program.metadata.text? "name", program.metadata.text? "description"⟩ := by
  -- The program runs as a block whose outermost scope holds its metadata.
  let c := ofProgram program config
  let start := c.state (program.metadata.text? "name") (program.metadata.text? "description") [] []
  -- Everything but the block of the program only prepares its state and reads the result off it.
  have hexpand : program.expand config = .ok vs ↔
      ∃ m, Expansion.runBlock program.body .start start = .ok () m ∧ m.variations.toList = vs := by
    have hprogram : Expansion.runProgram program (Expansion.new config) =
        match Expansion.runBlock program.body .start start with
        | .ok _ m => .ok m.variations.toList m
        | .error e m => .error e m := by
      unfold Expansion.runProgram
      rw [Expansion.bind_apply]
      change (Expansion.runBlock program.body .start >>= _) start = _
      rw [Expansion.bind_apply]
      cases Expansion.runBlock program.body .start start <;> rfl
    unfold Program.expand
    rw [hprogram]
    cases Expansion.runBlock program.body .start start with
    | ok _ m => simp
    | error e m => simp
  have hblock : ∀ m, Expansion.runBlock program.body .start start = .ok () m ↔ _ := fun m =>
    block_eq_ok .start (fun first => Expansion.runAll program.body first false) m
      (runAll_realizes program.body (fun _ => rfl) (Nat.zero_le _)) (Nat.zero_le _)
  rw [hexpand]
  simp only [hblock]
  unfold hands
  simp only [map_eq_ok]
  -- The hands of the block are counted from none.
  have hconfig : c.config = config := rfl
  constructor
  · rintro ⟨_, ⟨e, he, hcount, rfl⟩, rfl⟩
    exact ⟨_, ⟨e, he, rfl⟩, by simpa [hconfig] using hcount, by simp [state, titled]⟩
  · rintro ⟨_, ⟨e, he, rfl⟩, hcount, rfl⟩
    exact ⟨_, ⟨e, he, by simpa [hconfig] using hcount, rfl⟩, by simp [state, titled]⟩

end HandTemplate
