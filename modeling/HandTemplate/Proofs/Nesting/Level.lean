import Mathlib
import HandTemplate.Proofs.Expansion.Refinement

/-!
# Blocks around a body

A body of statements that stands in loops is described from the outside in: a level is one loop
together with the statements before and after it in its block. The hands of such a block come from
those of the body, pass by pass (`hands_block`).
-/

namespace HandTemplate

open Outcome (bind_eq_ok pure_eq_ok map_eq_ok)

/-- Elements have results exactly if each of them has. -/
theorem Outcome.mapM_eq_ok {ε α β : Type} {f : α → Except ε β} {xs : List α} {ys : List β} :
    xs.mapM f = .ok ys ↔ List.Forall₂ (fun x y => f x = .ok y) xs ys := by
  induction xs generalizing ys with
  | nil =>
    rw [List.mapM_nil, pure_eq_ok, List.forall₂_nil_left_iff]
    exact eq_comm
  | cons x xs ih =>
    rw [List.mapM_cons]
    simp only [bind_eq_ok, pure_eq_ok, ih, List.forall₂_cons_left_iff]
    constructor
    · rintro ⟨y, hy, ys, hys, rfl⟩
      exact ⟨y, ys, hy, hys, rfl⟩
    · rintro ⟨y, ys, hy, hys, rfl⟩
      exact ⟨y, hy, ys, hys, rfl⟩

namespace Effect

/-- Three contributions in a row may be joined in either order. -/
theorem andThen_assoc (first second third : Effect) :
    (first.andThen second).andThen third = first.andThen (second.andThen third) := by
  simp [andThen]

/-- What contributes no tiles and no hands changes nothing that comes after it. -/
theorem nothing_andThen (frame : Scope) (e : Effect) :
    andThen ⟨frame, [], []⟩ e = e := by
  simp [andThen]

end Effect

/-- A loop without its body, and the other statements of its block. -/
structure Level where
  /-- The statements before the loop. -/
  before : List Statement
  /-- What an element is bound to. -/
  binding : Binding
  /-- The source of the elements. -/
  source : Expr
  /-- The position of the loop. -/
  position : Position
  /-- The statements after the loop. -/
  after : List Statement

/-- The block of a level whose loop has the given body. -/
def Level.block (l : Level) (body : List Statement) : List Statement :=
  l.before ++ .foreach l.binding l.source body l.position :: l.after

/-- The block around a body that stands in several levels, the outermost first. -/
def nested (levels : List Level) (body : List Statement) : List Statement :=
  levels.foldr Level.block body

namespace Context

variable {c c' inner : Context} {before before' : List String} {e : Effect}

/-- Statements in a row contribute what the first ones do and then what the others do. -/
theorem effects_append_eq_ok {statements others : List Statement} :
    effects (statements ++ others) c before = .ok e ↔
      ∃ first, effects statements c before = .ok first ∧
        ∃ second, effects others { c with frame := first.frame } (before ++ first.tiles) =
          .ok second ∧ first.andThen second = e := by
  induction statements generalizing c before e with
  | nil => simp [effects, pure_eq_ok, Effect.nothing_andThen]
  | cons s statements ih =>
    simp only [List.cons_append, effects, bind_eq_ok, pure_eq_ok, ih]
    constructor
    · rintro ⟨first, hfirst, _, ⟨second, hsecond, third, hthird, rfl⟩, rfl⟩
      refine ⟨_, ⟨first, hfirst, second, hsecond, rfl⟩, third, ?_, Effect.andThen_assoc ..⟩
      simpa [Effect.andThen] using hthird
    · rintro ⟨_, ⟨first, hfirst, second, hsecond, rfl⟩, third, hthird, rfl⟩
      refine ⟨first, hfirst, _, ⟨second, hsecond, third, ?_, rfl⟩, (Effect.andThen_assoc ..).symm⟩
      simpa [Effect.andThen] using hthird

/-- A call contributes its tiles. -/
theorem effects_call_eq_ok {name : String} {arguments : List Expr} {p : Position}
    {statements : List Statement} :
    effects (.call name arguments p :: statements) c before = .ok e ↔
      ∃ tiles, c.callTiles name arguments p = .ok tiles ∧
        ∃ o, effects statements c (before ++ tiles) = .ok o ∧
          (⟨c.frame, tiles, []⟩ : Effect).andThen o = e := by
  simp only [effects, effect, bind_eq_ok, pure_eq_ok]
  constructor
  · rintro ⟨_, ⟨tiles, htiles, rfl⟩, o, ho, rfl⟩
    exact ⟨tiles, htiles, o, ho, rfl⟩
  · rintro ⟨tiles, htiles, o, ho, rfl⟩
    exact ⟨_, ⟨tiles, htiles, rfl⟩, o, ho, rfl⟩

/-- The hands of a block are there if its statements have a contribution, and come from it. -/
theorem hands_eq_ok {statements : List Statement} {hs : List (List String)} :
    c.hands statements before = .ok hs ↔
      ∃ e, effects statements c before = .ok e ∧ blockHands statements before e = hs :=
  map_eq_ok

/-- The hands of a loop's body for one element are those of the body as a block of its own. -/
theorem elementHands_eq_ok {binding : Binding} {body : List Statement} {position : Position}
    {item : Value} {hs : List (List String)} :
    c.elementHands binding body position before item = .ok hs ↔
      ∃ pass, c.forElement binding position item = .ok pass ∧ pass.hands body before = .ok hs := by
  unfold elementHands
  simp only [bind_eq_ok, pure_eq_ok, hands_eq_ok]

/-- In a block, the statements before the loop contribute `e`, and the loop visits the elements
`items` from the context `inner`. -/
structure Opens (c : Context) (l : Level) (before : List String) (e : Effect) (inner : Context)
    (items : List Value) : Prop where
  /-- The statements before the loop contribute this. -/
  effects : effects l.before c before = .ok e
  /-- The loop may be nested that deep. -/
  inLoop : { c with frame := e.frame }.inLoop l.position = .ok inner
  /-- The source has these elements. -/
  elements : inner.elements l.source = .ok items

/-- What a loop in a block starts from is determined by the block. -/
theorem Opens.unique {l : Level} {e' : Effect} {inner' : Context} {items items' : List Value}
    (h : c.Opens l before e inner items) (h' : c.Opens l before e' inner' items') :
    e' = e ∧ inner' = inner ∧ items' = items := by
  obtain rfl : e' = e := by simpa [h.effects] using h'.effects.symm
  obtain rfl : inner' = inner := by simpa [h.inLoop] using h'.inLoop.symm
  exact ⟨rfl, rfl, by simpa [h.elements] using h'.elements.symm⟩

/-- The hands of a block with a loop are those of the loop's passes, one after the other, with the
tiles that stand after the loop at their end; and the hands of other loops before and after. -/
theorem hands_block {l : Level} {body : List Statement} {hs : List (List String)} :
    c.hands (l.block body) before = .ok hs ↔
      ∃ e inner items, c.Opens l before e inner items ∧
        ∃ hss, List.Forall₂
          (inner.elementHands l.binding body l.position (before ++ e.tiles) · = .ok ·) items hss ∧
        ∃ o, effects l.after { c with frame := e.frame } (before ++ e.tiles) = .ok o ∧
          (e.hands ++ hss.flatten).map (· ++ o.tiles) ++ o.hands = hs := by
  -- A block with a loop in it makes no hand of its own tiles.
  have hloop : (l.block body).any Statement.isLoop = true := by
    simp [Level.block, Statement.isLoop]
  have hhands : ∀ e, blockHands (l.block body) before e = e.hands := fun _ => if_pos hloop
  have heffect : ∀ (c : Context) (before : List String),
      effect (.foreach l.binding l.source body l.position) c before = (do
        let inner ← c.inLoop l.position
        let items ← inner.elements l.source
        let hands ← items.mapM (inner.elementHands l.binding body l.position before)
        return ⟨c.frame, [], hands.flatten⟩) := fun _ _ => rfl
  simp only [hands_eq_ok, hhands]
  simp only [Level.block, effects_append_eq_ok, effects, heffect, bind_eq_ok, pure_eq_ok,
    Outcome.mapM_eq_ok]
  -- The effect of the block falls into that before the loop, that of the loop, and that after it.
  constructor
  · rintro ⟨_, ⟨e, he, _, ⟨_, hloop, o, ho, rfl⟩, rfl⟩, rfl⟩
    obtain ⟨inner, hinner, items, hitems, hss, hhss, rfl⟩ := hloop
    rw [List.append_nil] at ho
    exact ⟨e, inner, items, ⟨he, hinner, hitems⟩, hss, hhss, o, ho, by simp [Effect.andThen]⟩
  · rintro ⟨e, inner, items, hopens, hss, hhss, o, ho, rfl⟩
    refine ⟨_, ⟨e, hopens.effects, _, ⟨_, ⟨inner, hopens.inLoop, items, hopens.elements, hss, hhss,
      rfl⟩, o, ?_, rfl⟩, rfl⟩, by simp [Effect.andThen]⟩
    rwa [List.append_nil]

/-- A run of a block around a body, from the context `c` with the tiles `before`, comes to the body
in the context `c'` with the tiles `before'`. -/
inductive Passes : List Level → Context → List String → Context → List String → Prop where
  | here {c : Context} {before : List String} : Passes [] c before c before
  | inside {l : Level} {levels : List Level} {c inner pass c' : Context}
      {before before' : List String} {e : Effect} {items : List Value} {item : Value}
      (hopens : c.Opens l before e inner items) (hitem : item ∈ items)
      (hpass : inner.forElement l.binding l.position item = .ok pass)
      (hinside : Passes levels pass (before ++ e.tiles) c' before') :
      Passes (l :: levels) c before c' before'

/-- A body in an inner block is come to from the passes of the outer one. -/
theorem passes_append {outer inner : List Level} :
    Passes (outer ++ inner) c before c' before' ↔
      ∃ pass between, Passes outer c before pass between ∧
        Passes inner pass between c' before' := by
  constructor
  · intro h
    induction outer generalizing c before with
    | nil => exact ⟨c, before, .here, h⟩
    | cons l outer ih =>
      cases h with
      | inside hopens hitem hpass hinside =>
        obtain ⟨pass, between, houter, hinner⟩ := ih hinside
        exact ⟨pass, between, .inside hopens hitem hpass houter, hinner⟩
  · rintro ⟨pass, between, houter, hinner⟩
    induction houter with
    | here => exact hinner
    | inside hopens hitem hpass _ ih => exact .inside hopens hitem hpass (ih hinner)

end Context

end HandTemplate
