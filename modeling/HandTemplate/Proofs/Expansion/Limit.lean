import HandTemplate.Proofs.Expansion.Failing

/-!
# More hands than the limit allows

If what a program denotes has more hands than the limit on variations allows, then the expansion
fails when it comes to finish the first one too many, and its fault gives the limit and the next
number. So hands decide the expansion of a program that denotes any: `expand_of_hands` and
`hands_of_expand`.
-/

namespace HandTemplate

open Outcome (bind_eq_ok pure_eq_ok)

namespace Context

variable {name description : Option String}

/-- A step finishes one variation too many, in a state of a block. -/
def Overruns (name description : Option String) (c : Context) (buffer : List String)
    (finished : List Variation) (step : Step Unit) : Prop :=
  ∃ p, Expansion.Fails step (c.state name description buffer finished)
    ⟨.tooMany "variations" (c.config.maxItems + 1) c.config.maxItems, p⟩

/-- A block with too many hands overruns the limit if its statements do. Without loops, its only
hand is the one too many. -/
theorem block_overruns {body : List Statement} {position : Position} {c : Context}
    {buffer : List String} {finished : List Variation} {e : Effect}
    (hroom : finished.length ≤ c.config.maxItems)
    (hbody : c.config.maxItems < finished.length + e.hands.length →
      Overruns name description c buffer finished (Expansion.runAll body finished.length false))
    (he : effects body c buffer = .ok e)
    (hcount : c.config.maxItems < finished.length + (blockHands body buffer e).length) :
    Overruns name description c buffer finished (Expansion.runBlock body position) := by
  -- The block begins with the variations that are finished, and finishes its hands after them.
  have hsize : (c.state name description buffer finished).variations.size = finished.length := by
    simp [state]
  unfold Overruns
  simp only [Expansion.fails_runBlock, hsize]
  cases hloop : body.any Statement.isLoop with
  | true =>
    rw [blockHands, if_pos hloop] at hcount
    obtain ⟨p, hfails⟩ := hbody hcount
    exact ⟨p, .inl hfails⟩
  | false =>
    rw [blockHands, if_neg (by simp [hloop])] at hcount
    -- The statements of the block succeed, for they finish nothing themselves.
    have hnone := effects_hands_eq_nil hloop he
    have hrealizes : Realizes name description c buffer finished []
        (Expansion.runAll body finished.length false) (effects body c buffer) :=
      runAll_realizes body (fun _ => rfl) hroom
    have hrun := (hrealizes _).mpr ⟨e, he, by rw [hnone]; exact hroom, rfl⟩
    rw [List.append_nil] at hrun
    have hsize' : (c.stateAfter name description buffer finished [] e).variations.size =
        finished.length := by
      simp [stateAfter, state, hnone]
    cases hbuffer : (buffer ++ e.tiles).isEmpty with
    | true =>
      rw [if_pos hbuffer] at hcount
      exact absurd hcount (Nat.not_lt.mpr hroom)
    | false =>
      rw [if_neg (by simp [hbuffer]), List.length_singleton] at hcount
      refine ⟨(body.getLast?.map Statement.position).getD position,
        .inr ⟨_, hrun, rfl, hbuffer, ?_⟩⟩
      -- So there is no place left for the hand.
      have hfull : finished.length = c.config.maxItems := by omega
      rw [hsize', hfull]
      exact Expansion.checkCount_eq_error.mpr ⟨Nat.lt_succ_self _, rfl⟩

section
variable {binding : Binding} {body : List Statement} {position : Position} {buffer : List String}
  (hbody : ∀ (c : Context) (finished : List Variation) (e : Effect),
    finished.length ≤ c.config.maxItems → effects body c buffer = .ok e →
      c.config.maxItems < finished.length + e.hands.length →
        Overruns name description c buffer finished
          (Expansion.runAll body finished.length false))
include hbody

/-- A turn of a loop with too many hands overruns the limit. -/
theorem turn_overruns {c : Context} {item : Value} {finished : List Variation}
    {hs : List (List String)} (hroom : finished.length ≤ c.config.maxItems)
    (hhs : c.elementHands binding body position buffer item = .ok hs)
    (hcount : c.config.maxItems < finished.length + hs.length) :
    Overruns name description c buffer finished (Expansion.turn binding body position item) := by
  simp only [elementHands, forElement, bind_eq_ok, pure_eq_ok] at hhs
  obtain ⟨_, ⟨frame, hframe, rfl⟩, e, he, rfl⟩ := hhs
  -- The turn runs its body in a scope of its own, in which the item is bound.
  let opened : Context := { c with frame := .empty, outer := c.frame :: c.outer }
  let pass : Context := { opened with frame }
  have hassign : Expansion.assign binding item position
      (opened.state name description buffer finished) =
        .ok () (pass.state name description buffer finished) := by
    have hopened : bind binding item position opened.frame = .ok frame := hframe
    rw [assign_state, hopened]
  have hblock : pass.Overruns name description buffer finished
      (Expansion.runBlock body position) :=
    block_overruns hroom (hbody pass finished e hroom he) he hcount
  obtain ⟨p, hfails⟩ := hblock
  exact ⟨p, Expansion.fails_turn.mpr (.inr ⟨_, hassign, hfails⟩)⟩

/-- The turns of a loop with too many hands overrun the limit in one of them. -/
theorem turns_overrun {c : Context} {values : List Value} {finished : List Variation}
    {hss : List (List (List String))} (hroom : finished.length ≤ c.config.maxItems)
    (hhss : values.mapM (c.elementHands binding body position buffer) = .ok hss)
    (hcount : c.config.maxItems < finished.length + hss.flatten.length) :
    Overruns name description c buffer finished
      (Expansion.forValues (Expansion.turn binding body position) values) := by
  -- By induction on the values: either the first turn has a hand too many, or another one later.
  induction values generalizing finished hss with
  | nil =>
    cases hhss
    simp at hcount
    omega
  | cons item values ih =>
    -- What the first turn contributes, and what the others do.
    rw [List.mapM_cons] at hhss
    simp only [bind_eq_ok, pure_eq_ok] at hhss
    obtain ⟨hs, hhs, hss, hhss, rfl⟩ := hhss
    unfold Overruns
    simp only [Expansion.fails_forValues_cons]
    rcases Nat.lt_or_ge c.config.maxItems (finished.length + hs.length) with hmany | hfits
    · obtain ⟨p, hfails⟩ := turn_overruns hbody hroom hhs hmany
      exact ⟨p, .inl hfails⟩
    · -- The first turn succeeds, and its hands are among those that are finished for the others.
      let finished' := finished ++ hs.map (titled name description)
      have hlength : finished'.length = finished.length + hs.length := by simp [finished']
      have hturn : Expansion.turn binding body position item
          (c.state name description buffer finished) =
            .ok () (c.state name description buffer finished') :=
        (turn_eq_ok (fun _ _ hroom => runAll_realizes body (fun _ => rfl) hroom) hroom).mpr
          ⟨hs, hhs, hfits, rfl⟩
      have hroom' : finished'.length ≤ c.config.maxItems := by omega
      have hcount' : c.config.maxItems < finished'.length + hss.flatten.length := by
        rw [List.flatten_cons, List.length_append] at hcount
        omega
      obtain ⟨p, hfails⟩ := ih hroom' hhss hcount'
      exact ⟨p, .inr ⟨_, hturn, hfails⟩⟩

/-- A loop with too many hands overruns the limit in one of its turns. -/
theorem foreach_overruns {source : Expr} {c : Context} {finished : List Variation} {first : Nat}
    {looped : Bool} {e : Effect} (hroom : finished.length ≤ c.config.maxItems)
    (he : effect (.foreach binding source body position) c buffer = .ok e)
    (hcount : c.config.maxItems < finished.length + e.hands.length) :
    Overruns name description c buffer finished
      (Expansion.run (.foreach binding source body position) first looped) := by
  -- The contribution of a loop is that of its turns, one level deeper.
  have heffect : effect (.foreach binding source body position) c buffer = (do
      let inner ← c.inLoop position
      let values ← inner.elements source
      let hands ← values.mapM (inner.elementHands binding body position buffer)
      return ⟨c.frame, [], hands.flatten⟩) := rfl
  simp only [heffect, bind_eq_ok, pure_eq_ok, inLoop_eq_ok] at he
  obtain ⟨inner, ⟨hdepth, hinner⟩, values, hvalues, hss, hhss, rfl⟩ := he
  have hconfig : inner.config = c.config := by rw [hinner]
  have hdeeper : (c.state name description buffer finished).deeper =
      inner.state name description buffer finished := by rw [hinner]; rfl
  obtain ⟨v, hv, hitems⟩ := bind_eq_ok.mp hvalues
  have hsource :
      Expansion.exprValue source .nothing (inner.state name description buffer finished) =
        .ok v (inner.state name description buffer finished) := by
    rw [Expansion.exprValue_eq, Expansion.settle_eq_ok]
    exact ⟨hv, rfl⟩
  -- Since there are turns, the source has elements.
  have hvisits : v.elements? = some values := by
    cases hnone : v.elements? with
    | none =>
      rw [hnone] at hitems
      cases hitems
    | some items =>
      rw [hnone] at hitems
      cases hitems
      rfl
  have hturns : inner.Overruns name description buffer finished
      (Expansion.forValues (Expansion.turn binding body position) values) :=
    turns_overrun hbody (hconfig.symm ▸ hroom) hhss (hconfig.symm ▸ hcount)
  obtain ⟨p, hfails⟩ := hturns
  rw [hconfig] at hfails
  refine ⟨p, Expansion.fails_foreach.mpr (.inr ⟨hdepth, .inr ⟨v, ?_, .inr ⟨values, hvisits, ?_⟩⟩⟩)⟩
  · rw [hdeeper]
    exact hsource
  · rw [hdeeper]
    exact hfails

end

mutual

/-- A statement with too many hands overruns the limit. -/
theorem run_overruns : (s : Statement) → {c : Context} → {buffer : List String} →
    {kept changed : List Variation} → {looped : Bool} → {e : Effect} →
    kept.length + changed.length ≤ c.config.maxItems → effect s c buffer = .ok e →
    c.config.maxItems < kept.length + changed.length + e.hands.length →
    Overruns name description c buffer (kept ++ changed) (Expansion.run s kept.length looped)
  | .assign .., _, _, _, _, _, _, hroom, he, hcount => by
    rw [effect_hands_eq_nil rfl he] at hcount
    exact absurd hcount (Nat.not_lt.mpr hroom)
  | .call .., _, _, _, _, _, _, hroom, he, hcount => by
    rw [effect_hands_eq_nil rfl he] at hcount
    exact absurd hcount (Nat.not_lt.mpr hroom)
  | .foreach binding source body p, c, buffer, kept, changed, _, _, hroom, he, hcount => by
    rw [← List.length_append] at hroom hcount
    refine foreach_overruns (fun c finished e hroom he hcount => ?_) hroom he hcount
    have hbody : Overruns name description c buffer (finished ++ [])
        (Expansion.runAll body finished.length false) :=
      runAll_overruns body (fun _ => rfl) hroom he hcount
    rwa [List.append_nil] at hbody

/-- Statements with too many hands overrun the limit in one of them. -/
theorem runAll_overruns : (statements : List Statement) → {c : Context} → {buffer : List String} →
    {kept changed : List Variation} → {looped : Bool} → {e : Effect} →
    (looped = false → changed = []) → kept.length + changed.length ≤ c.config.maxItems →
    effects statements c buffer = .ok e →
    c.config.maxItems < kept.length + changed.length + e.hands.length →
    Overruns name description c buffer (kept ++ changed)
      (Expansion.runAll statements kept.length looped)
  | [], _, _, _, _, _, _, _, hroom, he, hcount => by
    cases he
    exact absurd hcount (Nat.not_lt.mpr hroom)
  | s :: statements, c, buffer, kept, changed, looped, _, hlooped, hroom, he, hcount => by
    simp only [effects, bind_eq_ok, pure_eq_ok] at he
    obtain ⟨first, hfirst, others, hothers, rfl⟩ := he
    unfold Overruns
    simp only [Expansion.fails_runAll_cons]
    -- Either the first statement has a hand too many, or it succeeds and the others have one.
    rcases Nat.lt_or_ge c.config.maxItems
      (kept.length + changed.length + first.hands.length) with hmany | hfits
    · have hoverruns : Overruns name description c buffer (kept ++ changed)
          (Expansion.run s kept.length looped) :=
        run_overruns s hroom hfirst hmany
      obtain ⟨p, hfails⟩ := hoverruns
      exact ⟨p, .inl hfails⟩
    -- After the first statement, the variations since `kept` are extended by its tiles, and its
    -- hands come after them.
    · let changed' := changed.map (Expansion.extend first.tiles) ++
        first.hands.map (titled name description)
      have hlength : changed'.length = changed.length + first.hands.length := by simp [changed']
      have hrealizes : Realizes name description c buffer kept changed
          (Expansion.run s kept.length looped) (effect s c buffer) :=
        run_realizes s hlooped hroom
      have hrun := (hrealizes _).mpr ⟨first, hfirst, hfits, rfl⟩
      have hlooped' : (looped || s.isLoop) = false → changed' = [] := by
        intro hnone
        rw [Bool.or_eq_false_iff] at hnone
        simp [changed', hlooped hnone.1, effect_hands_eq_nil hnone.2 hfirst]
      -- The others have as many hands too many as there are in all.
      have hroom' : kept.length + changed'.length ≤ c.config.maxItems := by omega
      have hcount' : c.config.maxItems <
          kept.length + changed'.length + others.hands.length := by
        simp only [Effect.andThen, List.length_append, List.length_map] at hcount
        omega
      let rest : Context := { c with frame := first.frame }
      have hrest : rest.Overruns name description (buffer ++ first.tiles) (kept ++ changed')
          (Expansion.runAll statements kept.length (looped || s.isLoop)) :=
        runAll_overruns statements hlooped' hroom' hothers hcount'
      obtain ⟨p, hfails⟩ := hrest
      exact ⟨p, .inr ⟨_, hrun, hfails⟩⟩

end

end Context

/-! ## Programs -/

namespace Program

open Context

/-- A hand as a variation of a program. -/
def titled (program : Program) (tiles : List String) : Variation :=
  Context.titled (program.metadata.text? "name") (program.metadata.text? "description") tiles

variable {program : Program} {config : Config}

/-- The body of a program succeeds as a block if it denotes hands within the limit, and these become
the variations. -/
theorem runBlock_opening {m : Expansion} :
    Expansion.runBlock program.body .start (program.opening config) = .ok () m ↔
      ∃ e, effects program.body (ofProgram program config) [] = .ok e ∧
        (blockHands program.body [] e).length ≤ config.maxItems ∧
        m = { ofProgram program config with frame := e.frame }.state
          (program.metadata.text? "name") (program.metadata.text? "description") []
            ((blockHands program.body [] e).map program.titled) := by
  have hrealizes : Realizes (program.metadata.text? "name") (program.metadata.text? "description")
      (ofProgram program config) [] [] [] (Expansion.runAll program.body 0 false)
        (effects program.body (ofProgram program config) []) :=
    runAll_realizes program.body (fun _ => rfl) (Nat.zero_le _)
  have hblock := block_eq_ok .start (fun first => Expansion.runAll program.body first false) m
    hrealizes (Nat.zero_le _)
  simp only [List.length_nil, Nat.zero_add, List.nil_append] at hblock
  exact hblock

/-- The variations of a program are its hands. -/
theorem hands_of_expand {vs : List Variation} (h : program.expand config = .ok vs) :
    ∃ hs, (ofProgram program config).hands program.body [] = .ok hs ∧
      vs = hs.map program.titled := by
  rw [expand_eq] at h
  cases hrun : Expansion.runBlock program.body .start (program.opening config) with
  | error e m =>
    rw [hrun] at h
    cases h
  | ok _ m =>
    rw [hrun] at h
    cases h
    obtain ⟨e, he, -, rfl⟩ := runBlock_opening.mp hrun
    refine ⟨blockHands program.body [] e, ?_, by simp [state]⟩
    unfold hands
    rw [he]
    rfl

/-- The hands of a program are its variations if the limit allows so many; otherwise the expansion
fails with the first one too many. -/
theorem expand_of_hands {hs : List (List String)}
    (h : (ofProgram program config).hands program.body [] = .ok hs) :
    (hs.length ≤ config.maxItems → program.expand config = .ok (hs.map program.titled)) ∧
      (config.maxItems < hs.length → ∃ p, program.expand config =
        .error ⟨.tooMany "variations" (config.maxItems + 1) config.maxItems, p⟩) := by
  obtain ⟨e, he, rfl⟩ := Outcome.map_eq_ok.mp h
  constructor
  -- Within the limit, the block succeeds and its hands are the variations.
  · intro hfits
    have hrun := runBlock_opening.mpr ⟨e, he, hfits, rfl⟩
    rw [expand_eq, hrun]
    simp [state]
  · intro hmany
    -- Beyond the limit, the block fails when it finishes the hand that is one too many.
    have hcount : (ofProgram program config).config.maxItems <
        ([] : List Variation).length + (blockHands program.body [] e).length := by
      rw [List.length_nil, Nat.zero_add]
      exact hmany
    have hblock : (ofProgram program config).Overruns (program.metadata.text? "name")
        (program.metadata.text? "description") [] [] (Expansion.runBlock program.body .start) :=
      block_overruns (Nat.zero_le _)
        (fun hcount => runAll_overruns program.body (fun _ => rfl) (Nat.zero_le _) he hcount) he
        hcount
    obtain ⟨p, hfails⟩ := hblock
    exact ⟨p, expand_eq_error.mpr hfails⟩

end Program

end HandTemplate
