import Mathlib
import HandTemplate.Proofs.Json.Blanks
import HandTemplate.Variation

/-!
# The JSON text of a compiled template determines it

A JSON document is decoded to the compiled template that it shows. Metadata values are written
without their types, but a document of each kind stands for values of one type only. Main statement:
`Template.render_determines`.
-/

namespace HandTemplate

/-- The values behind some documents, if each of them stands for one. -/
def Json.decodeItems? {α : Type} (decode : Json → Option α) : Json → Option (List α)
  | .array items => items.mapM decode
  | _ => none

/-- The text that a document is. -/
def Json.text? : Json → Option String
  | .string value => some value
  | _ => none

/-- Values that are each decoded from what is written for them are decoded in a row. -/
theorem mapM_encoded {α β : Type} {decode : β → Option α} {encode : α → β} {xs : List α}
    (h : ∀ x ∈ xs, decode (encode x) = some x) : (xs.map encode).mapM decode = some xs := by
  induction xs with
  | nil => rfl
  | cons x xs ih =>
    rw [List.map_cons, List.mapM_cons, h x (List.mem_cons_self ..),
      ih fun y hy => h y (List.mem_cons_of_mem x hy)]
    rfl

/-! ## Metadata -/

namespace Datum

/-- A value in which no real number stands. -/
inductive NoReal : Datum → Prop where
  | text {value : String} : NoReal (text value)
  | integer {value : Int64} : NoReal (integer value)
  | bool {value : Bool} : NoReal (bool value)
  | null : NoReal null
  | list {items : List Datum} (hitems : ∀ item ∈ items, NoReal item) : NoReal (list items)

/-- The value that a document stands for. -/
def ofJson? : Json → Option Datum
  | .string value => some (text value)
  | .integer value => some (integer value)
  | .real value => some (real value)
  | .bool value => some (bool value)
  | .null => some null
  | .array items => (items.mapM ofJson?).map list
  | .object _ => none

/-- A value without real numbers is written without real numbers. -/
theorem toJson_noReal {d : Datum} (h : d.NoReal) : d.toJson.NoReal := by
  induction h with
  | text => rw [toJson]; exact .string
  | integer => rw [toJson]; exact .integer
  | bool => rw [toJson]; exact .bool
  | null => rw [toJson]; exact .null
  | @list items _ ih =>
    rw [toJson]
    refine .array fun item hitem => ?_
    obtain ⟨d, hd, rfl⟩ := List.mem_map.mp hitem
    exact ih d hd

/-- A value is decoded from what is written for it. -/
theorem ofJson?_toJson : (d : Datum) → ofJson? d.toJson = some d
  | text _ | integer _ | real _ | bool _ | null => by rw [toJson, ofJson?]
  | list items => by
    rw [toJson, ofJson?, mapM_encoded fun item _ => ofJson?_toJson item]
    rfl

end Datum

namespace Metadata

/-- The entry that a field shows. -/
def entryOfJson? (field : String × Json) : Option (String × Datum) :=
  (Datum.ofJson? field.2).map (field.1, ·)

/-- The record that an object shows. -/
def ofJson? : Json → Option Metadata
  | .object fields => (fields.mapM entryOfJson?).map Record.mk
  | _ => none

/-- A record is decoded from its object, with its entries in order. -/
theorem ofJson?_toJson (m : Metadata) : ofJson? m.toJson = some m := by
  have hentries : (m.entries.map fun entry => (entry.1, entry.2.toJson)).mapM entryOfJson? =
      some m.entries := mapM_encoded fun entry _ => by
    rw [entryOfJson?, Datum.ofJson?_toJson]
    rfl
  exact congrArg (Option.map Record.mk) hentries

end Metadata

/-! ## Variations -/

namespace Variation

/-- The tile codes that an array lists. -/
def tilesOfJson? : Json → Option (List String) := Json.decodeItems? Json.text?

/-- The text of the field of the given name, which may be missing. -/
def textField? (name : String) (fields : List (String × Json)) : Option (Option String) :=
  match Record.lookup name fields with
  | none => some none
  | some document => document.text?.map some

/-- The variation that an object shows. -/
def ofJson? : Json → Option Variation
  | .object fields => do
    let tiles ← (Record.lookup "tiles" fields).bind tilesOfJson?
    return ⟨tiles, ← textField? "name" fields, ← textField? "description" fields⟩
  | _ => none

/-- The tiles of a variation are decoded from what is written for them. -/
theorem tilesOfJson?_tilesJson (v : Variation) : tilesOfJson? v.tilesJson = some v.tiles :=
  mapM_encoded fun _ _ => rfl

/-- A variation is decoded from its object, whichever of its texts are missing. -/
theorem ofJson?_toJson (v : Variation) : ofJson? v.toJson = some v := by
  have htiles := tilesOfJson?_tilesJson v
  obtain ⟨tiles, name, description⟩ := v
  unfold toJson ofJson?
  simp only [List.cons_append, Record.lookup, if_true, Option.bind_some, htiles]
  -- Which fields follow the tiles depends on which texts there are.
  cases name <;> cases description <;> rfl

/-- The tiles of a variation are written without real numbers. -/
theorem tilesJson_noReal (v : Variation) : v.tilesJson.NoReal := by
  refine .array fun item hitem => ?_
  obtain ⟨tile, -, rfl⟩ := List.mem_map.mp hitem
  exact .string

/-- A variation is written without real numbers. -/
theorem toJson_noReal (v : Variation) : v.toJson.NoReal := by
  refine .object fun field hfield => ?_
  rcases List.mem_cons.mp hfield with rfl | hfield
  · exact v.tilesJson_noReal
  obtain hname | hdescription := List.mem_append.mp hfield
  · obtain ⟨name, -, rfl⟩ := Option.map_eq_some_iff.mp (Option.mem_toList.mp hname)
    exact .string
  · obtain ⟨description, -, rfl⟩ := Option.map_eq_some_iff.mp (Option.mem_toList.mp hdescription)
    exact .string

end Variation

/-! ## Compiled templates -/

namespace Template

/-- A template in whose metadata no real number stands. -/
def NoReal (t : Template) : Prop := ∀ entry ∈ t.metadata.entries, entry.2.NoReal

/-- The template that an object shows. -/
def ofJson? : Json → Option Template
  | .object fields => do
    let metadata ← (Record.lookup "metadata" fields).bind Metadata.ofJson?
    let variations ← (Record.lookup "variations" fields).bind (Json.decodeItems? Variation.ofJson?)
    return ⟨metadata, variations⟩
  | _ => none

/-- The template that a text shows. -/
def ofText? (text : String) : Option Template := (Json.ofText text).toOption.bind ofJson?

/-- The lists of tiles that a text shows. -/
def tileListsOfText? (text : String) : Option (List (List String)) :=
  (Json.ofText text).toOption.bind (Json.decodeItems? Variation.tilesOfJson?)

/-- A template without real numbers is written without real numbers. -/
theorem toJson_noReal {t : Template} (h : t.NoReal) : t.toJson.NoReal := by
  have hmetadata : t.metadata.toJson.NoReal := by
    refine .object fun field hfield => ?_
    obtain ⟨entry, hentry, rfl⟩ := List.mem_map.mp hfield
    exact Datum.toJson_noReal (h entry hentry)
  have hvariations : (Json.array (t.variations.map (·.toJson))).NoReal := by
    refine .array fun item hitem => ?_
    obtain ⟨v, -, rfl⟩ := List.mem_map.mp hitem
    exact v.toJson_noReal
  refine .object fun field hfield => ?_
  rcases List.mem_pair.mp hfield with rfl | rfl
  · exact hmetadata
  · exact hvariations

/-- The tiles of all variations are written without real numbers. -/
theorem tilesJson_noReal (t : Template) : t.tilesJson.NoReal := by
  refine .array fun item hitem => ?_
  obtain ⟨v, -, rfl⟩ := List.mem_map.mp hitem
  exact v.tilesJson_noReal

/-- A template is decoded from its object. -/
theorem ofJson?_toJson (t : Template) : ofJson? t.toJson = some t := by
  have hvariations : Json.decodeItems? Variation.ofJson? (.array (t.variations.map (·.toJson))) =
      some t.variations := mapM_encoded fun v _ => v.ofJson?_toJson
  have hname : "metadata" ≠ "variations" := by decide
  unfold toJson ofJson?
  simp only [Record.lookup, if_true, if_neg hname, Option.bind_some, Metadata.ofJson?_toJson,
    hvariations]
  rfl

/-- A template is read from its text in either style. -/
theorem ofText?_render {t : Template} (h : t.NoReal) (style : Json.Style) :
    ofText? (t.toJson.render style) = some t := by
  rw [ofText?, Json.ofText_render style (toJson_noReal h)]
  exact ofJson?_toJson t

/-- The lists of tiles are read from their text in either style. -/
theorem tileListsOfText?_render (t : Template) (style : Json.Style) :
    tileListsOfText? (t.tilesJson.render style) = some (t.variations.map (·.tiles)) := by
  have hlists : ((t.variations.map (·.tiles)).map fun tiles => Json.array (tiles.map .string)).mapM
      Variation.tilesOfJson? = some (t.variations.map (·.tiles)) :=
    mapM_encoded fun _ _ => mapM_encoded fun _ _ => rfl
  rw [List.map_map] at hlists
  rw [tileListsOfText?, Json.ofText_render style t.tilesJson_noReal]
  exact hlists

/-- The JSON text of a template without real numbers determines the template, in whichever style it
is written. It is a document with the metadata and the variations in order, which is decoded to the
template itself; the pretty text is the compact one with white space between tokens; and the text
with the tiles alone is decoded to the tiles of the variations. -/
theorem render_determines {t : Template} (h : t.NoReal) :
    (∀ style, Json.ofText (t.toJson.render style) = .ok t.toJson ∧
      ofText? (t.toJson.render style) = some t) ∧
    Json.unspaced .outside (t.toJson.render .pretty).toList = (t.toJson.render .compact).toList ∧
    (∀ style, Json.ofText (t.tilesJson.render style) = .ok t.tilesJson ∧
      tileListsOfText? (t.tilesJson.render style) = some (t.variations.map (·.tiles))) ∧
    ∀ {t' : Template}, t'.NoReal → ∀ {style style' : Json.Style},
      t.toJson.render style = t'.toJson.render style' → t = t' := by
  refine ⟨fun style => ⟨Json.ofText_render style (toJson_noReal h), ofText?_render h style⟩,
    Json.unspaced_render .pretty (toJson_noReal h),
    fun style => ⟨Json.ofText_render style t.tilesJson_noReal, tileListsOfText?_render t style⟩,
    ?_⟩
  intro t' h' style style' heq
  -- Both templates are read from the same text.
  have hread := ofText?_render h style
  rw [heq, ofText?_render h' style'] at hread
  exact (Option.some.inj hread).symm

/-- Texts with quotes, backslashes, line ends and control characters are read back, as are empty
ones, from either style. -/
theorem render_determines_quoted :
    let t : Template :=
      ⟨⟨[("na\"me\n", .list [.list [], .text "\\ é\x01", .integer (-3)]), ("", .null)]⟩,
        [⟨["5m", " ", "\t"], some "a b", none⟩, ⟨[], none, some ""⟩]⟩
    t.NoReal ∧ ofText? (t.toJson.render .compact) = some t ∧
      ofText? (t.toJson.render .pretty) = some t ∧
      tileListsOfText? (t.tilesJson.render .pretty) = some [["5m", " ", "\t"], []] := by
  intro t
  -- The only values inside are texts, an integer, a list without items and null.
  have hempty : (Datum.list []).NoReal := .list fun _ h => nomatch h
  have hlist : (Datum.list [.list [], .text "\\ é\x01", .integer (-3)]).NoReal := by
    refine .list ?_
    rintro _ (_ | ⟨_, _ | ⟨_, _ | ⟨_, ⟨⟩⟩⟩⟩)
    · exact hempty
    · exact .text
    · exact .integer
  have h : t.NoReal := by
    rintro _ (_ | ⟨_, _ | ⟨_, ⟨⟩⟩⟩)
    · exact hlist
    · exact .null
  obtain ⟨hdocument, -, htiles, -⟩ := render_determines h
  exact ⟨h, (hdocument .compact).2, (hdocument .pretty).2, (htiles .pretty).2⟩

end Template

end HandTemplate
