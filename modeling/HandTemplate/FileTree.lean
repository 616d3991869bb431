import HandTemplate.Path
import HandTemplate.Record

/-!
# Trees of files

A file tree is what a directory holds, and what the directories in it hold. A path is followed from
a given place in the tree, or from the outermost directory, which is its own parent, if there is a
slash in front. Nothing is known of a file but its content.
-/

namespace HandTemplate

/-- A file, or a directory with everything below it. -/
inductive FileTree (α : Type) where
  /-- A file with the given content. -/
  | file (content : α)
  /-- A directory; each of its entries has a name of its own. -/
  | directory (entries : List (String × FileTree α))

/-- The ways in which files are not accessible. -/
inductive FileError where
  /-- A path leads to nothing. -/
  | notFound
  /-- There is something where a directory should be made. -/
  | occupied
  /-- A path goes on after a file. -/
  | notDirectory
  /-- A path leads to a directory where a file is needed. -/
  | isDirectory
  /-- A path or a name in it has too many bytes. -/
  | tooLong
  /-- Anything else. -/
  | other (text : String)
  deriving DecidableEq, Repr

/-- The message of a failed access. -/
def FileError.message : FileError → String
  | notFound => "No such file or directory (os error 2)"
  | occupied => "File exists (os error 17)"
  | notDirectory => "Not a directory (os error 20)"
  | isDirectory => "Is a directory (os error 21)"
  | tooLong => "File name too long (os error 36)"
  | other text => text

namespace FileTree

variable {α : Type}

/-- Whether this is a directory. -/
def isDirectory : FileTree α → Bool
  | directory _ => true
  | file _ => false

/-- The entry of the given name in a directory. -/
def child? (name : String) : FileTree α → Option (FileTree α)
  | directory entries => Record.lookup name entries
  | file _ => none

/-- What some names lead to. -/
def get? : List String → FileTree α → Option (FileTree α)
  | [], tree => some tree
  | name :: names, tree => (tree.child? name).bind (get? names)

/-- The tree in which some names lead to a given node; where there is no directory on the way, there
is one then. -/
def insert (node : FileTree α) : List String → FileTree α → FileTree α
  | [], _ => node
  | name :: names, file _ => directory [(name, insert node names (directory []))]
  | name :: names, directory entries =>
    let child := (Record.lookup name entries).getD (directory [])
    directory (Record.store name (insert node names child) entries)

/-- Whether some names lead to a directory. -/
def hasDirectory (tree : FileTree α) (names : List String) : Bool :=
  ((tree.get? names).map isDirectory).getD false

/-- The names that lead to each file, in the order of the names. -/
def files : FileTree α → List (List String × α)
  | file content => [([], content)]
  | directory entries =>
    let below := entries.map fun entry => (entry.1, entry.2.files)
    (below.mergeSort fun a b => decide (a.1 ≤ b.1)).flatMap fun part =>
      part.2.map fun found => (part.1 :: found.1, found.2)
termination_by tree => sizeOf tree
decreasing_by
  have := List.sizeOf_lt_of_mem ‹_ ∈ _›
  cases entry
  simp only [Prod.mk.sizeOf_spec, directory.sizeOf_spec] at this ⊢
  omega

/-- The names that lead to each directory, in the order of the names and from the outside to the
inside. -/
def directories : FileTree α → List (List String)
  | file _ => []
  | directory entries =>
    let below := entries.map fun entry => (entry.1, entry.2.directories)
    [] :: (below.mergeSort fun a b => decide (a.1 ≤ b.1)).flatMap fun part =>
      part.2.map (part.1 :: ·)
termination_by tree => sizeOf tree
decreasing_by
  have := List.sizeOf_lt_of_mem ‹_ ∈ _›
  cases entry
  simp only [Prod.mk.sizeOf_spec, directory.sizeOf_spec] at this ⊢
  omega

/-! ## Following paths -/

/-- The names to where some steps lead from a place in a tree. -/
def follow (tree : FileTree α) : (place : List String) → (steps : List String) →
    Except FileError (List String)
  | place, [] => .ok place
  | place, step :: steps =>
    if !tree.hasDirectory place then .error .notDirectory
    else if Path.isIdle step then tree.follow place steps
    else if step = ".." then tree.follow place.dropLast steps
    else if Path.isTooLongName step then .error .tooLong
    else if (tree.get? (place ++ [step])).isSome then tree.follow (place ++ [step]) steps
    else .error .notFound

/-- What a path leads to from a place. -/
def access (tree : FileTree α) (place : List String) (path : String) :
    Except FileError (FileTree α) :=
  if Path.isTooLong path then .error .tooLong
  else do
    let names ← tree.follow (Path.start place path) (Path.steps path)
    match tree.get? names with
    | some node => return node
    | none => throw .notFound

/-- The content of the file that a path leads to from a place. -/
def read (tree : FileTree α) (place : List String) (path : String) : Except FileError α := do
  match ← tree.access place path with
  | file content => return content
  | directory _ => throw .isDirectory

/-! ## Changes -/

/-- The names to the directory in which the end of a path is looked up. -/
def enclosing (tree : FileTree α) (place : List String) (path : String) :
    Except FileError (List String) :=
  if Path.isTooLong path then .error .tooLong
  else do
    let names ← tree.follow (Path.start place path) (Path.steps (Path.parent path))
    if tree.hasDirectory names then return names else throw .notDirectory

/-- The tree in which the directory to which some names lead has a directory of the given name. -/
def makeIn (tree : FileTree α) (names : List String) (name : String) :
    Except FileError (FileTree α) :=
  if Path.isTooLongName name then .error .tooLong
  else
    match tree.get? (names ++ [name]) with
    | some (directory _) => .ok tree
    | some (file _) => .error .occupied
    | none => .ok (insert (directory []) (names ++ [name]) tree)

/-- The tree in which there is a directory at a path from a place. The directories on the way must
be there. -/
def makeDirectory (tree : FileTree α) (place : List String) (path : String) :
    Except FileError (FileTree α) := do
  let names ← tree.enclosing place path
  match Path.fileName? path with
  | none => return tree
  | some name => tree.makeIn names name

/-- The tree in which the directory to which some names lead has a file of the given name with the
given content. -/
def writeIn (tree : FileTree α) (names : List String) (name : String) (content : α) :
    Except FileError (FileTree α) :=
  if Path.isTooLongName name then .error .tooLong
  else if tree.hasDirectory (names ++ [name]) then .error .isDirectory
  else .ok (insert (file content) (names ++ [name]) tree)

/-- The tree in which the file at a path from a place has the given content. The directories on the
way must be there. -/
def write (tree : FileTree α) (place : List String) (path : String) (content : α) :
    Except FileError (FileTree α) := do
  let names ← tree.enclosing place path
  match Path.fileName? path with
  | none => throw .isDirectory
  | some name => tree.writeIn names name content

end FileTree

end HandTemplate
