import HandTemplate.Config
import HandTemplate.Json.Reader

/-!
# Reading configurations

A configuration is written as a JSON object that has any of three keys, each at most once, or as a
JSON array of the first few of their values in a fixed order. Whatever is missing keeps its default.
-/

namespace HandTemplate

namespace Config

open Json (ReadError Taken)
open Json.Reader (another mark mismatch skipBlanks)

/-- What can be configured. -/
inductive Setting where
  | maxDepth
  | maxItems
  | symbolAtoms
  deriving DecidableEq, Repr

namespace Setting

/-- All settings, in the order of their values in an array. -/
def all : List Setting := [maxDepth, maxItems, symbolAtoms]

/-- The key of a setting. -/
def key : Setting → String
  | maxDepth => "max_depth"
  | maxItems => "max_items"
  | symbolAtoms => "symbol_atoms"

/-- Reads the value of a setting into a configuration. -/
def read (config : Config) (cs : List Char) : Setting → Except ReadError (Taken Config)
  | maxDepth => (Json.Reader.size cs).map fun (n, rest) => ({ config with maxDepth := n }, rest)
  | maxItems => (Json.Reader.size cs).map fun (n, rest) => ({ config with maxItems := n }, rest)
  | symbolAtoms =>
    (Json.Reader.truth cs).map fun (b, rest) => ({ config with symbolAtoms := b }, rest)

end Setting

/-- A setting that was found among others is one less of them. -/
theorem length_erase_lt {settings : List Setting} {p : Setting → Bool} {setting : Setting}
    (h : settings.find? p = some setting) :
    (settings.erase setting).length < settings.length := by
  have hmem := List.mem_of_find?_eq_some h
  have := List.length_erase_of_mem hmem
  have := List.length_pos_of_mem hmem
  omega

/-- Reads the values of the given settings from an array after its opening bracket; the array may
end before any of them, but not go on after the last. -/
def readValues (first : Bool) (config : Config) (settings : List Setting) (cs : List Char) :
    Except ReadError (Taken Config) :=
  match settings with
  | [] => (mark ']' cs).map fun (_, rest) => (config, rest)
  | setting :: settings => do
    let (more, cs) ← another ']' first cs
    if more then
      let (config, cs) ← setting.read config cs
      readValues false config settings cs
    else return (config, cs)

/-- Reads the fields of an object after its opening brace. Only the given settings may have a field
still, so a key that comes twice is rejected like one that means nothing. -/
def readFields (first : Bool) (config : Config) (settings : List Setting) (cs : List Char) :
    Except ReadError (Taken Config) := do
  let (more, cs) ← another '\x7d' first cs
  if more then
    match cs with
    | '"' :: _ =>
      let (key, cs) ← Json.Reader.string cs
      match h : settings.find? (·.key = key) with
      | none => throw .unsuitable
      | some setting =>
        have := length_erase_lt h
        let (_, cs) ← mark ':' cs
        let (config, cs) ← setting.read config cs
        readFields false config (settings.erase setting) cs
    | _ => throw .malformed
  else return (config, cs)
termination_by settings.length

/-- The configuration that a text describes. -/
def ofJson (text : String) : Except ReadError Config := do
  let (config, rest) ←
    match skipBlanks text.toList with
    | '[' :: cs => readValues true {} Setting.all cs
    | '\x7b' :: cs => readFields true {} Setting.all cs
    | cs => .error (mismatch cs)
  if (skipBlanks rest).isEmpty then return config else throw .malformed

end Config

end HandTemplate
