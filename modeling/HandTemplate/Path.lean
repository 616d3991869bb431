/-!
# Paths

A path is a text in which slashes stand between names. Only the text is looked at here, and never
what is stored at a path. A path and each name in it may have a limited number of bytes.
-/

namespace HandTemplate

namespace Path

/-- The stretches of a text between slashes. -/
def split : List Char → List (List Char)
  | [] => [[]]
  | c :: cs =>
    if c = '/' then [] :: split cs
    else
      match split cs with
      | [] => [[c]]
      | first :: others => (c :: first) :: others

/-- The steps along a path. An empty step, like a single point, leads nowhere. -/
def steps (path : String) : List String := (split path.toList).map String.ofList

/-- Whether a step stays where it is. -/
def isIdle (step : String) : Bool := step = "" || step = "."

/-- The steps along a path that lead somewhere. -/
def names (path : String) : List String := (steps path).filter (!isIdle ·)

/-- The names to where a path begins if it is followed from the directory to which some names lead.
A path with a slash in front begins at the outermost directory. -/
def start (place : List String) (path : String) : List String :=
  match path.toList with
  | '/' :: _ => []
  | _ => place

/-- The path along some steps. -/
def ofSteps (steps : List String) : String :=
  String.ofList (['/'].intercalate (steps.map String.toList))

/-- The path to what a name stands for within a directory. -/
def join (directory name : String) : String :=
  if directory.toList.getLast? = some '/' then directory ++ name else directory ++ "/" ++ name

/-- The characters of a name before its last point, and those after it. A name without a point, or
with one at its beginning only, has no extension. -/
def splitName (name : List Char) : List Char × Option (List Char) :=
  match name.reverse.dropWhile (· ≠ '.') with
  | _ :: c :: stem => ((c :: stem).reverse, some (name.reverse.takeWhile (· ≠ '.')).reverse)
  | _ => (name, none)

/-- A name without its extension. -/
def stem (name : String) : String := String.ofList (splitName name.toList).1

/-- What follows the last point of a name. -/
def extension? (name : String) : Option String := (splitName name.toList).2.map String.ofList

/-- The name at the end of a path, unless the path ends with a step upward. -/
def fileName? (path : String) : Option String := (names path).getLast?.filter (· ≠ "..")

/-- A path without its last name, and without the idle steps before and after that name. -/
def parent (path : String) : String :=
  let before := ((steps path).reverse.dropWhile isIdle).drop 1
  ofSteps (before.dropWhile isIdle).reverse

/-! ## Limits -/

/-- The greatest number of bytes in a name. -/
def maxNameSize : Nat := 255

/-- The greatest number of bytes in a path. -/
def maxSize : Nat := 4095

/-- Whether nothing can have the given name because it is too long. -/
def isTooLongName (name : String) : Bool := decide (maxNameSize < name.utf8ByteSize)

/-- Whether a path is too long to be followed. -/
def isTooLong (path : String) : Bool := decide (maxSize < path.utf8ByteSize)

end Path

end HandTemplate
