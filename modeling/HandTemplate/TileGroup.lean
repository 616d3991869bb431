import HandTemplate.Number

/-!
# Tile groups

A tile group is what a hand is made of: some copies of one tile, or consecutive tiles of one suit. A
tile is known by its code only.
-/

namespace HandTemplate

/-- The shapes of tile groups. -/
inductive GroupShape where
  /-- One tile. -/
  | single
  /-- Two identical tiles. -/
  | pair
  /-- Three identical tiles. -/
  | pung
  /-- Four identical tiles. -/
  | kong
  /-- Five identical tiles. -/
  | quint
  /-- Consecutive tiles of one suit. -/
  | sequence
  deriving DecidableEq, Repr

namespace GroupShape

/-- The number of copies in a group of identical tiles; a sequence has no fixed length. -/
def copies : GroupShape → Option Nat
  | single => some 1
  | pair => some 2
  | pung => some 3
  | kong => some 4
  | quint => some 5
  | sequence => none

/-- The word for a shape. -/
def name : GroupShape → String
  | single => "single"
  | pair => "pair"
  | pung => "pung"
  | kong => "kong"
  | quint => "quint"
  | sequence => "sequence"

/-- All shapes. -/
def all : List GroupShape := [single, pair, pung, kong, quint, sequence]

/-- The shape that a word stands for. -/
def ofName? (word : String) : Option GroupShape := all.find? (·.name = word)

end GroupShape

/-- Some tiles that were made together. -/
structure TileGroup where
  /-- How they were made. -/
  shape : GroupShape
  /-- Their codes in order. -/
  tiles : List String
  deriving DecidableEq, Repr

namespace TileGroup

/-- As many copies of a tile as the shape asks for, and one where it asks for no number. -/
def ofCopies (shape : GroupShape) (code : String) : TileGroup :=
  ⟨shape, List.replicate (shape.copies.getD 1) code⟩

/-- Some tiles of a suit and, after the last of them with the number `last`, so many more whose
numbers ascend one by one, unless a number leaves the words. -/
def continued? (suit : String) (last : Int64) (tiles : Array String) : Nat → Option (Array String)
  | 0 => some tiles
  | more + 1 => do
    let next ← Number.add? last 1
    continued? suit next (tiles.push (Number.text next ++ suit)) more

/-- The sequence of so many tiles of a suit whose numbers ascend from `start` on, unless a number
leaves the words. The number after the last tile is not asked for. -/
def ascending? (start : Int64) (suit : String) : Nat → Option TileGroup
  | 0 => some ⟨.sequence, []⟩
  | more + 1 => do
    let tiles ← continued? suit start #[Number.text start ++ suit] more
    return ⟨.sequence, tiles.toList⟩

/-- The number of tiles. -/
def size (g : TileGroup) : Nat := g.tiles.length

/-- Whether there are no tiles. -/
def isEmpty (g : TileGroup) : Bool := g.tiles.isEmpty

/-- A group as it is shown: its shape, and its tiles in brackets. -/
def text (g : TileGroup) : String := g.shape.name ++ "[" ++ String.intercalate " " g.tiles ++ "]"

end TileGroup

end HandTemplate
