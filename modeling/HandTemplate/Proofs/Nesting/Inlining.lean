import HandTemplate.Proofs.Expansion.Dependence
import HandTemplate.Proofs.Expansion.Limit
import HandTemplate.Proofs.Nesting.Level

/-!
# Calls around a loop belong to its body

A call that stands directly before a loop can be moved to the start of the loop's body, and one that
stands directly after it to the end, if what the call mentions is bound neither by the loop nor in
its body. The first move never changes the variations. The second one changes them only where a pass
through a body without loops comes to its end with no tile at all: such a pass finishes no
variation, but with the call in the body it finishes one that is made of the call's tiles alone.
Main statement: `expand_moved`.
-/

namespace HandTemplate

/-- Of two lists of hands the second one has all of the first one in order, and it has no others
exactly if `P` holds. -/
structure Retains (P : Prop) (hs hs' : List (List String)) : Prop where
  /-- The hands are still there, in the same order. -/
  sublist : hs.Sublist hs'
  /-- The hands are the same. -/
  eq_iff : hs' = hs ↔ P

namespace Retains

variable {P Q : Prop} {hs hs' others others' : List (List String)}

/-- Hands are the same as themselves. -/
theorem refl (hs : List (List String)) : Retains True hs hs := ⟨.refl _, iff_of_true rfl trivial⟩

/-- What the hands are the same for may be said in another way. -/
theorem congr (h : Retains P hs hs') (hiff : P ↔ Q) : Retains Q hs hs' :=
  ⟨h.sublist, h.eq_iff.trans hiff⟩

/-- More tiles at the end of every hand. -/
theorem map (h : Retains P hs hs') (tiles : List String) :
    Retains P (hs.map (· ++ tiles)) (hs'.map (· ++ tiles)) := by
  have hinjective : Function.Injective (List.map (· ++ tiles)) :=
    List.map_injective_iff.mpr fun _ _ => List.append_cancel_right
  exact ⟨h.sublist.map _, hinjective.eq_iff.trans h.eq_iff⟩

/-- Hands in front of others are kept together with these, and all are the same exactly if both are.
-/
theorem append (h : Retains P hs hs') (hothers : Retains Q others others') :
    Retains (P ∧ Q) (hs ++ others) (hs' ++ others') := by
  refine ⟨h.sublist.append hothers.sublist, ?_⟩
  rw [← h.eq_iff, ← hothers.eq_iff]
  constructor
  · intro heq
    -- Neither list is longer than its counterpart, so neither may be longer at all.
    have hlength := congrArg List.length heq
    rw [List.length_append, List.length_append] at hlength
    have hle := h.sublist.length_le
    have hle' := hothers.sublist.length_le
    exact ⟨(h.sublist.eq_of_length (by omega)).symm,
      (hothers.sublist.eq_of_length (by omega)).symm⟩
  · rintro ⟨rfl, rfl⟩
    rfl

end Retains

/-- A level with one more statement directly before its loop. -/
def Level.precededBy (l : Level) (s : Statement) : Level := { l with before := l.before ++ [s] }

/-- A level with one more statement directly after its loop. -/
def Level.followedBy (l : Level) (s : Statement) : Level := { l with after := s :: l.after }

namespace Context

variable {c : Context} {before before' : List String} {body body' : List Statement}
  {hs hs' : List (List String)}

/-- If a change in a loop's body retains the hands of every pass, or what `f` makes of them, then it
retains those of the whole loop. -/
theorem loop_retains {binding : Binding} {position : Position} {items : List Value}
    {hss hss' : List (List (List String))} {P : Context → Prop}
    (f : List (List String) → List (List String))
    (hpasses : ∀ item ∈ items, ∀ pass, c.forElement binding position item = .ok pass → ∀ hs hs',
      pass.hands body before = .ok hs → pass.hands body' before' = .ok hs' →
        Retains (P pass) (f hs) hs')
    (h : List.Forall₂ (c.elementHands binding body position before · = .ok ·) items hss)
    (h' : List.Forall₂ (c.elementHands binding body' position before' · = .ok ·) items hss') :
    Retains (∀ item ∈ items, ∀ pass, c.forElement binding position item = .ok pass → P pass)
      (hss.map f).flatten hss'.flatten := by
  -- By induction on the elements, whose hands are put one after the other.
  induction h generalizing hss' with
  | nil =>
    cases h'
    exact (Retains.refl []).congr (by simp)
  | @cons item hs items hss hhead _ ih =>
    cases h' with
    | @cons _ hs' _ _ hhead' htail' =>
      -- Both bodies run in the same pass, since the loop binds the same name to the same element.
      obtain ⟨pass, hpass, hhs⟩ := elementHands_eq_ok.mp hhead
      obtain ⟨pass', hpass', hhs'⟩ := elementHands_eq_ok.mp hhead'
      obtain rfl : pass = pass' := by simpa [hpass] using hpass'
      obtain ⟨hfirst, hothers⟩ := List.forall_mem_cons.mp hpasses
      have hitem : Retains (∀ pass, c.forElement binding position item = .ok pass → P pass)
          (f hs) hs' := by
        refine (hfirst pass hpass hs hs' hhs hhs').congr ⟨fun hP pass' hpass' => ?_, fun hP => ?_⟩
        · obtain rfl : pass = pass' := by simpa [hpass] using hpass'
          exact hP
        · exact hP pass hpass
      refine (hitem.append (ih hothers htail')).congr ?_
      rw [List.forall_mem_cons]

/-- A change in a body that retains its hands in every pass retains the hands of the block around
it. -/
theorem nested_retains {levels : List Level} {P : Context → List String → Prop}
    (hbody : ∀ pass between, Passes levels c before pass between → ∀ hs hs',
      pass.hands body between = .ok hs → pass.hands body' between = .ok hs' →
        Retains (P pass between) hs hs')
    (h : c.hands (nested levels body) before = .ok hs)
    (h' : c.hands (nested levels body') before = .ok hs') :
    Retains (∀ pass between, Passes levels c before pass between → P pass between) hs hs' := by
  -- By induction on the levels; a pass of the whole block is one of its first level and one inside.
  induction levels generalizing c before hs hs' with
  | nil =>
    refine (hbody c before .here hs hs' h h').congr ⟨fun hP pass between hpass => ?_, fun hP => ?_⟩
    · cases hpass
      exact hP
    · exact hP c before .here
  | cons l levels ih =>
    obtain ⟨e, inner, items, hopens, hss, hhss, o, ho, rfl⟩ := hands_block.mp h
    obtain ⟨e', inner', items', hopens', hss', hhss', o', ho', rfl⟩ := hands_block.mp h'
    obtain ⟨rfl, rfl, rfl⟩ := hopens.unique hopens'
    obtain rfl : o = o' := by simpa [ho] using ho'
    have hloop := loop_retains id (fun item hitem c₁ hc₁ hs hs' hhs hhs' =>
      ih (fun pass between hpass => hbody pass between (.inside hopens hitem hc₁ hpass)) hhs hhs')
      hhss hhss'
    rw [List.map_id] at hloop
    refine ((((Retains.refl e'.hands).append hloop).map o.tiles).append (.refl o.hands)).congr ?_
    constructor
    · rintro ⟨⟨-, hP⟩, -⟩ pass between hpass
      cases hpass with
      | inside hopens' hitem hc₁ hinside =>
        obtain ⟨rfl, rfl, rfl⟩ := hopens.unique hopens'
        exact hP _ hitem _ hc₁ pass between hinside
    · exact fun hP => ⟨⟨trivial, fun item hitem c₁ hc₁ pass between hpass =>
        hP pass between (.inside hopens hitem hc₁ hpass)⟩, trivial⟩

/-! ## A block with one loop -/

/-- What statements contribute to a block without loops does not depend on the tiles before them. -/
theorem effects_before {statements : List Statement}
    (hloop : statements.any Statement.isLoop = false) (before before' : List String) :
    effects statements c before = effects statements c before' := by
  induction statements generalizing c before before' with
  | nil => rfl
  | cons s statements ih =>
    rw [List.any_cons, Bool.or_eq_false_iff] at hloop
    have hfirst : effect s c before = effect s c before' := by
      cases s with
      | foreach => cases hloop.1
      | _ => rfl
    simp only [effects, hfirst]
    cases effect s c before' with
    | error e => rfl
    | ok first =>
      exact congrArg (fun r => r >>= fun others => pure (first.andThen others)) (ih hloop.2 _ _)

variable {name : String} {arguments : List Expr} {p : Position}

/-- A call at the end of statements contributes its tiles after theirs. -/
theorem effects_append_call_eq_ok {statements : List Statement} {e : Effect} :
    effects (statements ++ [.call name arguments p]) c before = .ok e ↔
      ∃ first tiles, effects statements c before = .ok first ∧
        { c with frame := first.frame }.callTiles name arguments p = .ok tiles ∧
          first.andThen ⟨first.frame, tiles, []⟩ = e := by
  rw [effects_append_eq_ok]
  constructor
  · rintro ⟨first, hfirst, second, hsecond, rfl⟩
    obtain ⟨tiles, htiles, o, ho, rfl⟩ := effects_call_eq_ok.mp hsecond
    cases ho
    exact ⟨first, tiles, hfirst, htiles, by simp [Effect.andThen]⟩
  · rintro ⟨first, tiles, hfirst, htiles, rfl⟩
    refine ⟨first, hfirst, _, effects_call_eq_ok.mpr ⟨tiles, htiles, _, rfl, rfl⟩, ?_⟩
    simp [Effect.andThen]

/-- A body that starts with a call has the hands that it has without the call after its tiles. -/
theorem hands_call_eq_ok :
    c.hands (.call name arguments p :: body) before = .ok hs ↔
      ∃ tiles, c.callTiles name arguments p = .ok tiles ∧
        c.hands body (before ++ tiles) = .ok hs := by
  have hhands : ∀ tiles (o : Effect), blockHands (.call name arguments p :: body) before
      ((⟨c.frame, tiles, []⟩ : Effect).andThen o) = blockHands body (before ++ tiles) o := by
    intro tiles o
    simp [blockHands, Effect.andThen, Statement.isLoop]
  simp only [hands_eq_ok, effects_call_eq_ok]
  constructor
  · rintro ⟨_, ⟨tiles, htiles, o, ho, rfl⟩, rfl⟩
    exact ⟨tiles, htiles, o, ho, (hhands tiles o).symm⟩
  · rintro ⟨tiles, htiles, o, ho, rfl⟩
    exact ⟨_, ⟨tiles, htiles, o, ho, rfl⟩, hhands tiles o⟩

/-- After a pass through a body, a call adds no variation of its own: if the body has no loops and
there is no tile yet, then the call has none either. -/
def AddsNone (c : Context) (before : List String) (body : List Statement) (name : String)
    (arguments : List Expr) (p : Position) : Prop :=
  body.any Statement.isLoop = false → ∀ e tiles, effects body c before = .ok e →
    { c with frame := e.frame }.callTiles name arguments p = .ok tiles →
      before ++ e.tiles = [] → tiles = []

/-- A call at the end of a body ends its hands, and may make one of its own. -/
theorem hands_append_call_retains {e : Effect} {tiles : List String}
    (he : effects body c before = .ok e)
    (htiles : { c with frame := e.frame }.callTiles name arguments p = .ok tiles)
    (h' : c.hands (body ++ [.call name arguments p]) before = .ok hs') :
    Retains (c.AddsNone before body name arguments p)
      ((blockHands body before e).map (· ++ tiles)) hs' := by
  obtain ⟨_, he', rfl⟩ := hands_eq_ok.mp h'
  obtain ⟨first, tiles', hfirst, htiles', rfl⟩ := effects_append_call_eq_ok.mp he'
  obtain rfl : e = first := by simpa [he] using hfirst
  obtain rfl : tiles = tiles' := by simpa [htiles] using htiles'
  -- Whether the call adds no hand is a question about its own tiles alone, which are known.
  have hadds : c.AddsNone before body name arguments p ↔
      (body.any Statement.isLoop = false → before ++ e.tiles = [] → tiles = []) := by
    constructor
    · exact fun h hloop => h hloop e tiles he htiles
    · intro h hloop e' tiles' he' htiles'
      obtain rfl : e = e' := by simpa [he] using he'
      obtain rfl : tiles = tiles' := by simpa [htiles] using htiles'
      exact h hloop
  have hany : (body ++ [Statement.call name arguments p]).any Statement.isLoop =
      body.any Statement.isLoop := by
    rw [List.any_append]
    exact Bool.or_false _
  rw [hadds]
  unfold blockHands
  rw [hany]
  cases hloop : body.any Statement.isLoop with
  | true =>
    -- The tiles end the hands of the body's loops in the same way.
    simpa [Effect.andThen] using (Retains.refl (e.hands.map (· ++ tiles))).congr (by simp)
  | false =>
    simp only [Bool.false_eq_true, if_false, Effect.andThen, true_implies, ← List.append_assoc]
    -- Without loops the body makes one hand of all its tiles, or none if there are none.
    rcases List.eq_nil_or_concat (before ++ e.tiles) with hnil | ⟨_, _, hne⟩
    · rw [hnil]
      cases tiles with
      | nil => exact (Retains.refl []).congr (by simp)
      | cons tile tiles => exact ⟨by simp, by simp⟩
    · rw [hne]
      simpa using (Retains.refl _).congr (by simp)

/-- The hands of a block with one loop are those of its passes with the tiles after the loop. -/
theorem hands_block_of_single {l : Level}
    (hloops : (l.before ++ l.after).any Statement.isLoop = false) :
    c.hands (l.block body) before = .ok hs ↔
      ∃ e inner items, c.Opens l before e inner items ∧
        ∃ hss, List.Forall₂
          (inner.elementHands l.binding body l.position (before ++ e.tiles) · = .ok ·) items hss ∧
        ∃ o, effects l.after { c with frame := e.frame } [] = .ok o ∧
          hss.flatten.map (· ++ o.tiles) = hs := by
  rw [List.any_append, Bool.or_eq_false_iff] at hloops
  rw [hands_block]
  refine exists_congr fun e => exists_congr fun inner => exists_congr fun items =>
    and_congr_right fun hopens => exists_congr fun hss => and_congr_right fun _ =>
      exists_congr fun o => ?_
  rw [effects_before hloops.2 (before ++ e.tiles) [], effects_hands_eq_nil hloops.1 hopens.effects,
    List.nil_append]
  refine and_congr_right fun ho => ?_
  rw [effects_hands_eq_nil hloops.2 ho, List.append_nil]

section
variable {l : Level} (hloops : (l.before ++ l.after).any Statement.isLoop = false)
  (hbound : ∀ n ∈ name :: Expr.namesOf arguments, n ∉ l.binding.names)
include hloops hbound

/-- A call directly before a loop can be moved to the start of each pass. -/
theorem hands_precededBy_retains
    (h : c.hands ((l.precededBy (.call name arguments p)).block body) before = .ok hs)
    (h' : c.hands (l.block (.call name arguments p :: body)) before = .ok hs') :
    Retains True hs hs' := by
  have hloops' : ((l.precededBy (.call name arguments p)).before ++ l.after).any
      Statement.isLoop = false := by
    simpa [Level.precededBy, Statement.isLoop] using hloops
  obtain ⟨_, inner, items, hopens, hss, hhss, o, ho, rfl⟩ := (hands_block_of_single hloops').mp h
  obtain ⟨e, inner', items', hopens', hss', hhss', o', ho', rfl⟩ :=
    (hands_block_of_single hloops).mp h'
  obtain ⟨first, tiles, hfirst, htiles, rfl⟩ := effects_append_call_eq_ok.mp hopens.effects
  obtain rfl : first = e := by simpa [hfirst] using hopens'.effects
  -- The call leaves the scope as it is, so that the loop visits the same elements.
  have hopened : c.Opens l before first inner items := ⟨hfirst, hopens.inLoop, hopens.elements⟩
  obtain ⟨-, rfl, rfl⟩ := hopened.unique hopens'
  have hsame : effects l.after { c with frame := first.frame } [] = .ok o := ho
  obtain rfl : o = o' := by simpa [hsame] using ho'
  have hbetween : before ++ (first.andThen ⟨first.frame, tiles, []⟩).tiles =
      before ++ first.tiles ++ tiles := by
    simp [Effect.andThen]
  rw [hbetween] at hhss
  -- In each pass the call has the tiles that it has before the loop, none of its names being bound
  -- by the loop.
  have hpasses : ∀ item ∈ items', ∀ pass, inner'.forElement l.binding l.position item = .ok pass →
      ∀ hs hs', pass.hands body (before ++ first.tiles ++ tiles) = .ok hs →
        pass.hands (.call name arguments p :: body) (before ++ first.tiles) = .ok hs' →
          Retains True (id hs) hs' := by
    rintro item - pass hpass hs hs' hhs hhs'
    obtain ⟨tiles', htiles', hhs'⟩ := hands_call_eq_ok.mp hhs'
    obtain rfl : tiles' = tiles :=
      callTiles_eq_of_agree (pass_agree hopened.inLoop hpass hbound) htiles' htiles
    rw [hhs'] at hhs
    cases hhs
    exact .refl _
  have hloop := (loop_retains id hpasses hhss hhss').map o.tiles
  rw [List.map_id] at hloop
  exact hloop.congr (by simp)

/-- A call directly after a loop can be moved to the end of each pass. -/
theorem hands_followedBy_retains
    (hassigned : ∀ n ∈ name :: Expr.namesOf arguments, n ∉ body.flatMap Statement.targets)
    (h : c.hands ((l.followedBy (.call name arguments p)).block body) before = .ok hs)
    (h' : c.hands (l.block (body ++ [.call name arguments p])) before = .ok hs') :
    Retains (∀ pass between, Passes [l] c before pass between →
      pass.AddsNone between body name arguments p) hs hs' := by
  have hloops' : (l.before ++ (l.followedBy (.call name arguments p)).after).any
      Statement.isLoop = false := by
    simpa [Level.followedBy, Statement.isLoop] using hloops
  obtain ⟨e, inner, items, hopens, hss, hhss, _, ho, rfl⟩ := (hands_block_of_single hloops').mp h
  obtain ⟨e', inner', items', hopens', hss', hhss', o', ho', rfl⟩ :=
    (hands_block_of_single hloops).mp h'
  have hopened : c.Opens l before e inner items :=
    ⟨hopens.effects, hopens.inLoop, hopens.elements⟩
  obtain ⟨rfl, rfl, rfl⟩ := hopened.unique hopens'
  obtain ⟨tiles, htiles, o, hrest, rfl⟩ := effects_call_eq_ok.mp ho
  rw [List.any_append, Bool.or_eq_false_iff] at hloops
  have hsame : effects l.after { c with frame := e'.frame } [] = .ok o := by
    rwa [effects_before hloops.2 [] ([] ++ tiles)]
  obtain rfl : o = o' := by simpa [hsame] using ho'
  -- The call ends all hands of the loop, which is the same as ending the hands of each pass.
  have hpasses : ∀ item ∈ items', ∀ pass, inner'.forElement l.binding l.position item = .ok pass →
      ∀ hs hs', pass.hands body (before ++ e'.tiles) = .ok hs →
        pass.hands (body ++ [.call name arguments p]) (before ++ e'.tiles) = .ok hs' →
          Retains (pass.AddsNone (before ++ e'.tiles) body name arguments p)
            (hs.map (· ++ tiles)) hs' := by
    rintro item - pass hpass hs hs' hhs hhs'
    obtain ⟨first, hfirst, rfl⟩ := hands_eq_ok.mp hhs
    obtain ⟨_, he, -⟩ := hands_eq_ok.mp hhs'
    obtain ⟨first', tiles', hfirst', htiles', -⟩ := effects_append_call_eq_ok.mp he
    obtain rfl : first = first' := by simpa [hfirst] using hfirst'
    -- The body assigns no name of the call and the loop binds none, so that the call has the same
    -- tiles after the body of any pass.
    have hagree := (effects_agree hfirst hassigned).trans (pass_agree hopened.inLoop hpass hbound)
    obtain rfl : tiles' = tiles := callTiles_eq_of_agree hagree htiles' htiles
    exact hands_append_call_retains hfirst htiles' hhs'
  have hloop := (loop_retains (List.map (· ++ tiles)) hpasses hhss hhss').map o.tiles
  have hsplit : hss.flatten.map (· ++ (tiles ++ o.tiles)) =
      ((hss.map (List.map (· ++ tiles))).flatten).map (· ++ o.tiles) := by
    simp [← List.map_flatten]
  change Retains _ (hss.flatten.map (· ++ (tiles ++ o.tiles))) _
  rw [hsplit]
  -- Passes of the one loop are those of its elements.
  refine hloop.congr ⟨?_, ?_⟩
  · intro hadds pass between hpass
    cases hpass with
    | inside hopens' hitem hpass hinside =>
      obtain ⟨rfl, rfl, rfl⟩ := hopened.unique hopens'
      cases hinside
      exact hadds _ hitem _ hpass
  · exact fun hadds item hitem pass hpass =>
      hadds pass (before ++ e'.tiles) (.inside hopened hitem hpass .here)

end

end Context

open Context

/-- Variations that are made of hands are the same exactly if the hands are. -/
theorem Retains.titled {P : Prop} {hs hs' : List (List String)} (h : Retains P hs hs')
    (program : Program) :
    (hs.map program.titled).Sublist (hs'.map program.titled) ∧
      (hs'.map program.titled = hs.map program.titled ↔ P) := by
  have hinjective : Function.Injective (List.map program.titled) :=
    List.map_injective_iff.mpr fun _ _ heq => congrArg Variation.tiles heq
  exact ⟨h.sublist.map _, hinjective.eq_iff.trans h.eq_iff⟩

/-- If no name that a call mentions is bound by the only loop of a block, then the call can be moved
from directly before the loop to the start of the loop's body without changing the variations. If
none of these names is assigned in the body either, the call can be moved from directly after the
loop to the end of the body: then all variations are still there in the same order, and there are
others exactly if some pass through a body without loops ends with no tile, but the call has one. -/
theorem expand_moved (metadata : Metadata) (config : Config) (levels : List Level) (l : Level)
    (body : List Statement) (name : String) (arguments : List Expr) (p : Position)
    (hloops : (l.before ++ l.after).any Statement.isLoop = false)
    (hbound : ∀ n ∈ name :: Expr.namesOf arguments, n ∉ l.binding.names) :
    let call := Statement.call name arguments p
    let expand (block : List Statement) := Program.expand ⟨metadata, nested levels block⟩ config
    (∀ vs vs', expand ((l.precededBy call).block body) = .ok vs →
      expand (l.block (call :: body)) = .ok vs' → vs' = vs) ∧
    ((∀ n ∈ name :: Expr.namesOf arguments, n ∉ body.flatMap Statement.targets) →
      ∀ vs vs', expand ((l.followedBy call).block body) = .ok vs →
        expand (l.block (body ++ [call])) = .ok vs' →
          vs.Sublist vs' ∧
          (vs' = vs ↔ ∀ pass before,
            Passes (levels ++ [l]) (ofProgram ⟨metadata, []⟩ config) [] pass before →
              pass.AddsNone before body name arguments p)) := by
  intro call expand
  -- Hands decide variations, and for hands the two moves are lemmas about a single loop, which
  -- carry over to the levels around it.
  constructor
  · intro vs vs' h h'
    obtain ⟨hs, hhs, rfl⟩ := Program.hands_of_expand h
    obtain ⟨hs', hhs', rfl⟩ := Program.hands_of_expand h'
    have hretains := nested_retains (P := fun _ _ => True)
      (fun _ _ _ _ _ h h' => hands_precededBy_retains hloops hbound h h') hhs hhs'
    exact (hretains.titled _).2.mpr fun _ _ _ => trivial
  · intro hassigned vs vs' h h'
    obtain ⟨hs, hhs, rfl⟩ := Program.hands_of_expand h
    obtain ⟨hs', hhs', rfl⟩ := Program.hands_of_expand h'
    have hretains := nested_retains
      (fun _ _ _ _ _ h h' => hands_followedBy_retains hloops hbound hassigned h h') hhs hhs'
    have htitled := hretains.titled ⟨metadata, []⟩
    refine ⟨htitled.1, htitled.2.trans ⟨fun hadds pass before hpass => ?_, ?_⟩⟩
    · obtain ⟨_, _, houter, hinner⟩ := passes_append.mp hpass
      exact hadds _ _ houter pass before hinner
    · exact fun hadds _ _ houter pass before hinner =>
        hadds pass before (passes_append.mpr ⟨_, _, houter, hinner⟩)

/-- A pair can stand before or after the inner one of two loops, or in its body. -/
theorem expand_moved_pair :
    let outer : Level := ⟨[], .name "x", .range 1 2 ⟨1, 14⟩, ⟨1, 1⟩, []⟩
    let l : Level := ⟨[], .name "y", .tuple [.tile "b" ⟨2, 14⟩] ⟨2, 13⟩, ⟨2, 1⟩, []⟩
    let body : List Statement :=
      [.call "single" [.identifier "x" ⟨3, 8⟩, .identifier "y" ⟨3, 11⟩] ⟨3, 1⟩]
    let pair : Statement := .call "pair" [.identifier "E" ⟨4, 6⟩] ⟨4, 1⟩
    Program.expand ⟨.empty, nested [outer] ((l.precededBy pair).block body)⟩ {} =
        .ok [⟨["E", "E", "1b"], none, none⟩, ⟨["E", "E", "2b"], none, none⟩] ∧
      (∃ vs, Program.expand ⟨.empty, nested [outer] (l.block (pair :: body))⟩ {} = .ok vs ∧
        vs = [⟨["E", "E", "1b"], none, none⟩, ⟨["E", "E", "2b"], none, none⟩]) ∧
      Program.expand ⟨.empty, nested [outer] ((l.followedBy pair).block body)⟩ {} =
        .ok [⟨["1b", "E", "E"], none, none⟩, ⟨["2b", "E", "E"], none, none⟩] ∧
      Program.expand ⟨.empty, nested [outer] (l.block (body ++ [pair]))⟩ {} =
        .ok [⟨["1b", "E", "E"], none, none⟩, ⟨["2b", "E", "E"], none, none⟩] ∧
      ∀ pass before, Passes [outer, l] (ofProgram ⟨.empty, []⟩ {}) [] pass before →
        pass.AddsNone before body "pair" [.identifier "E" ⟨4, 6⟩] ⟨4, 1⟩ := by
  intro outer l body pair
  have hahead : Program.expand ⟨.empty, nested [outer] ((l.precededBy pair).block body)⟩ {} =
      .ok [⟨["E", "E", "1b"], none, none⟩, ⟨["E", "E", "2b"], none, none⟩] := by cbv
  have hahead' : Program.expand ⟨.empty, nested [outer] (l.block (pair :: body))⟩ {} =
      .ok [⟨["E", "E", "1b"], none, none⟩, ⟨["E", "E", "2b"], none, none⟩] := by cbv
  have hbehind : Program.expand ⟨.empty, nested [outer] ((l.followedBy pair).block body)⟩ {} =
      .ok [⟨["1b", "E", "E"], none, none⟩, ⟨["2b", "E", "E"], none, none⟩] := by cbv
  have hbehind' : Program.expand ⟨.empty, nested [outer] (l.block (body ++ [pair]))⟩ {} =
      .ok [⟨["1b", "E", "E"], none, none⟩, ⟨["2b", "E", "E"], none, none⟩] := by cbv
  obtain ⟨hbefore, hafter⟩ := expand_moved .empty {} [outer] l body "pair"
    [.identifier "E" ⟨4, 6⟩] ⟨4, 1⟩ rfl (by decide)
  exact ⟨hahead, ⟨_, hahead', hbefore _ _ hahead hahead'⟩, hbehind, hbehind',
    (hafter (by decide) _ _ hbehind hbehind').2.mp rfl⟩

/-- A pair after a loop whose body only assigns a name is in no variation, for no pass has a tile.
At the end of the body it makes a variation of its own in every pass. -/
theorem expand_moved_blank_passes :
    let l : Level := ⟨[], .name "x", .range 1 3 ⟨1, 14⟩, ⟨1, 1⟩, []⟩
    let assignment : Statement := .assign (.name "y") (.number 1 ⟨2, 5⟩) ⟨2, 1⟩
    let pair : Statement := .call "pair" [.identifier "E" ⟨3, 6⟩] ⟨3, 1⟩
    (∀ n ∈ ["pair", "E"], n ∉ l.binding.names ∧ n ∉ [assignment].flatMap Statement.targets) ∧
      Program.expand ⟨.empty, (l.followedBy pair).block [assignment]⟩ {} = .ok [] ∧
      Program.expand ⟨.empty, l.block ([assignment] ++ [pair])⟩ {} =
        .ok [⟨["E", "E"], none, none⟩, ⟨["E", "E"], none, none⟩, ⟨["E", "E"], none, none⟩] := by
  intro l assignment pair
  exact ⟨by decide, by cbv, by cbv⟩

end HandTemplate
