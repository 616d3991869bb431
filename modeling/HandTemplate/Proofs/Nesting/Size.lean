import HandTemplate.Proofs.Expansion.Dependence
import HandTemplate.Proofs.Expansion.Operations
import HandTemplate.Proofs.Nesting.Level

/-!
# How many tiles a group has

A call of a shape makes as many tiles as the shape has copies. A sequence has as many as its third
argument says, so that their number depends on the names in that argument only. Main statements:
`callTiles_hasSize` and `HasSize.unique`.
-/

namespace HandTemplate

open Outcome (bind_eq_ok map_eq_ok)

/-- A call that makes a tile group. -/
structure GroupCall where
  /-- The shape of the group. -/
  shape : GroupShape
  /-- What makes up its tiles. -/
  arguments : List Expr
  /-- The position of the call. -/
  position : Position

/-- The call as a statement. -/
def GroupCall.statement (g : GroupCall) : Statement := .call g.shape.name g.arguments g.position

/-! ## Shapes -/

namespace Builtin

/-- The name of a shape is that of the builtin for the shape. -/
theorem ofName?_shape (shape : GroupShape) : ofName? shape.name = some (group shape) := by
  cases shape <;> decide

end Builtin

namespace Builtin

variable {shape : GroupShape} {config : Config} {p : Position} {vs : List Value} {v : Value}

/-- What a shape makes is a group: of as many tiles as it has copies, or for a sequence of as many
as the third value says. -/
theorem apply_group (h : (group shape).apply config p vs = .ok v) :
    ∃ g : TileGroup, v = .group g ∧
      (shape.copies = some g.tiles.length ∨
        ∃ start suit n, shape = .sequence ∧ vs = [start, suit, .integer n] ∧
          n.toInt.toNat = g.tiles.length) := by
  cases apply_eq_ok.mp h with
  | copies hshape =>
    refine ⟨_, rfl, .inl ?_⟩
    rw [TileGroup.ofCopies, List.length_replicate]
    cases shape with
    | sequence => exact absurd rfl hshape
    | _ => rfl
  | sequence _ _ _ hg =>
    exact ⟨_, rfl, .inr ⟨_, _, _, rfl, rfl, (TileGroup.length_of_ascending? hg).symm⟩⟩

end Builtin

/-! ## Calls -/

namespace Context

variable {c c' : Context} {g : GroupCall}

/-- A call makes a group of so many tiles. -/
inductive HasSize (c : Context) (g : GroupCall) : Nat → Prop where
  /-- The shape has as many copies. -/
  | copies {n : Nat} (hcopies : g.shape.copies = some n) : HasSize c g n
  /-- The third argument of a sequence says so. -/
  | sequence {length : Expr} {n : Int64} (hshape : g.shape = .sequence)
      (hlength : g.arguments[2]? = some length)
      (hvalue : Expansion.View.run { c.view with depth := c.depth + 1 }
        (Expansion.exprValue length .symbol) = .ok (.integer n)) :
      HasSize c g n.toInt.toNat

/-- The tiles of group calls. -/
def groupTiles (c : Context) (calls : List GroupCall) : Except ExpansionFault (List String) :=
  (calls.mapM fun g => c.callTiles g.shape.name g.arguments g.position).map List.flatten

/-- A builtin is bound under no other name than its own. -/
def OwnNames (c : Context) : Prop :=
  ∀ name bound, Expansion.lookup name (c.frame :: c.outer) = some (.builtin bound) → bound = name

/-- The tiles of a group call are as many as its size. -/
theorem callTiles_hasSize (hown : c.OwnNames) {tiles : List String}
    (h : c.callTiles g.shape.name g.arguments g.position = .ok tiles) :
    c.HasSize g tiles.length := by
  -- What is called under the name of a builtin is that builtin, since no other is bound there.
  obtain ⟨v, hv, htiles⟩ := bind_eq_ok.mp h
  obtain ⟨b, hb, -, vs, hvs, -, happly⟩ := Expansion.View.run_callValue.mp hv
  obtain ⟨bound, hbound, hname⟩ := Expansion.View.run_callee.mp hb
  obtain rfl := hown _ _ hbound
  rw [Builtin.ofName?_shape] at hname
  cases hname
  obtain ⟨made, rfl, hsize⟩ := Builtin.apply_group happly
  cases htiles
  -- Only a sequence has a size that is an argument, the third one.
  rcases hsize with hcopies | ⟨start, suit, n, hshape, rfl, hlength⟩
  · exact .copies hcopies
  · rw [← hlength]
    have hvalues := Expansion.View.run_exprValues.mp hvs
    obtain ⟨e₁, es₁, -, htail₁, h₁⟩ := List.forall₂_cons_right_iff.mp hvalues
    obtain ⟨e₂, es₂, -, htail₂, h₂⟩ := List.forall₂_cons_right_iff.mp htail₁
    obtain ⟨e₃, es₃, hvalue, -, h₃⟩ := List.forall₂_cons_right_iff.mp htail₂
    exact .sequence hshape (by rw [h₁, h₂, h₃]; rfl) hvalue

/-- A group call has the same size in two contexts in which the names that its third argument
mentions, if it is a sequence, have the same values. -/
theorem HasSize.unique {n n' : Nat}
    (hagree : g.shape = .sequence → ∀ length, g.arguments[2]? = some length →
      c.view.Agree length.names c'.view)
    (h : c.HasSize g n) (h' : c'.HasSize g n') : n = n' := by
  -- The sizes of all other groups are fixed, so that the shape alone decides.
  cases h with
  | copies hcopies =>
    cases h' with
    | copies hcopies' =>
      rw [hcopies] at hcopies'
      cases hcopies'
      rfl
    | sequence hshape =>
      rw [hshape] at hcopies
      cases hcopies
  | @sequence length n hshape hlength hvalue =>
    cases h' with
    | copies hcopies =>
      rw [hshape] at hcopies
      cases hcopies
    | @sequence length' n' _ hlength' hvalue' =>
      rw [hlength] at hlength'
      cases hlength'
      have hagree := hagree hshape length hlength
      have hsame := Expansion.exprValue_dependsOn length .symbol
        { c.view with depth := c.depth + 1 } { c'.view with depth := c'.depth + 1 }
        ⟨hagree.config, hagree.lookup⟩ _ _ hvalue hvalue'
      cases hsame
      rfl

/-- The tiles of group calls are as many as their sizes sum up to. -/
theorem groupTiles_hasSizes (hown : c.OwnNames) {calls : List GroupCall} {tiles : List String}
    (h : c.groupTiles calls = .ok tiles) :
    ∃ sizes, List.Forall₂ c.HasSize calls sizes ∧ tiles.length = sizes.sum := by
  obtain ⟨parts, hparts, rfl⟩ := map_eq_ok.mp h
  rw [Outcome.mapM_eq_ok] at hparts
  refine ⟨parts.map List.length, ?_, List.length_flatten⟩
  rw [List.forall₂_map_right_iff]
  exact hparts.imp fun _ _ => callTiles_hasSize hown

/-- Group calls have the same sizes where each of them has. -/
theorem hasSizes_unique {calls : List GroupCall} {sizes sizes' : List Nat}
    (hagree : ∀ g ∈ calls, g.shape = .sequence → ∀ length, g.arguments[2]? = some length →
      c.view.Agree length.names c'.view)
    (h : List.Forall₂ c.HasSize calls sizes) (h' : List.Forall₂ c'.HasSize calls sizes') :
    sizes = sizes' := by
  induction h generalizing sizes' with
  | nil =>
    cases h'
    rfl
  | cons hfirst _ ih =>
    cases h' with
    | cons hfirst' hothers' =>
      obtain ⟨hg, hcalls⟩ := List.forall_mem_cons.mp hagree
      rw [hfirst.unique hg hfirst', ih hcalls hothers']

end Context

end HandTemplate
