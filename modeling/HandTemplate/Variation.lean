import HandTemplate.Metadata

/-!
# Variations and compiled templates

A variation is one concrete hand. A compiled template is the metadata of a template together with
all its variations, and is what the output shows.
-/

namespace HandTemplate

/-- One concrete hand. -/
structure Variation where
  /-- The tile codes in the order in which the template produced them. -/
  tiles : List String
  /-- The name of the template, if its metadata has one. -/
  name : Option String
  /-- The description of the template, if its metadata has one. -/
  description : Option String
  deriving DecidableEq, Repr

namespace Variation

/-- The tile codes as a JSON array. -/
def tilesJson (v : Variation) : Json := .array (v.tiles.map .string)

/-- A variation as a JSON object; what is missing has no field. -/
def toJson (v : Variation) : Json :=
  .object (("tiles", v.tilesJson) :: (v.name.map (("name", .string ·))).toList ++
    (v.description.map (("description", .string ·))).toList)

end Variation

/-- A compiled template. -/
structure Template where
  /-- The metadata as it was written. -/
  metadata : Metadata
  /-- All variations in the order in which the template produced them. -/
  variations : List Variation
  deriving Repr

namespace Template

/-- The whole template as a JSON object. -/
def toJson (t : Template) : Json :=
  .object [("metadata", t.metadata.toJson), ("variations", .array (t.variations.map (·.toJson)))]

/-- The tile lists alone as a JSON array. -/
def tilesJson (t : Template) : Json := .array (t.variations.map (·.tilesJson))

end Template

end HandTemplate
