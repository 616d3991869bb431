import HandTemplate.FileTree

/-!
# What a run needs from its surroundings

A run reads and writes files and prints on two streams. `Host` names these actions and nothing else,
so a run can take place in a file system as well as in a `Session`, where everything is a value.
-/

namespace HandTemplate

namespace CommandLine

/-- The actions of a run on its surroundings. -/
class Host (m : Type → Type) extends Monad m where
  /-- What the directory at a path holds, if there is a directory at that path. -/
  directory? (path : String) : m (Option (FileTree Unit))
  /-- The content of the file at a path. -/
  readText (path : String) : m (Except FileError String)
  /-- Makes a directory at a path, unless there is one. The directories on the way must be there. -/
  makeDirectory (path : String) : m (Except FileError Unit)
  /-- Writes a file. The directories on the way must be there. -/
  writeText (path text : String) : m (Except FileError Unit)
  /-- Prints on the stream for results. -/
  writeOut (text : String) : m Unit
  /-- Prints on the stream for messages. -/
  writeMessage (text : String) : m Unit

/-- Surroundings that consist of a file tree, a place in it, and what was printed on the two
streams. -/
structure Session where
  /-- The files. -/
  tree : FileTree String
  /-- The names to the directory from which paths are followed. -/
  place : List String := []
  /-- What was printed as a result. -/
  out : String := ""
  /-- What was printed as a message. -/
  messages : String := ""

namespace Session

/-- The tree without the contents of its files. -/
def shape : FileTree String → FileTree Unit
  | .file _ => .file ()
  | .directory entries => .directory (entries.map fun entry => (entry.1, shape entry.2))
termination_by tree => sizeOf tree
decreasing_by
  have := List.sizeOf_lt_of_mem ‹_ ∈ _›
  cases entry
  simp only [Prod.mk.sizeOf_spec, FileTree.directory.sizeOf_spec] at this ⊢
  omega

/-- The session after a change of its tree. -/
def change (f : FileTree String → List String → Except FileError (FileTree String)) (s : Session) :
    Except FileError Unit × Session :=
  match f s.tree s.place with
  | .ok tree => (.ok (), { s with tree })
  | .error e => (.error e, s)

instance : Host (StateM Session) where
  directory? path := do
    let s ← get
    match s.tree.access s.place path with
    | .ok (.directory entries) => return some (shape (.directory entries))
    | _ => return none
  readText path := return (← get).tree.read (← get).place path
  makeDirectory path := modifyGet (change fun tree place => tree.makeDirectory place path)
  writeText path text := modifyGet (change fun tree place => tree.write place path text)
  writeOut text := modify fun s => { s with out := s.out ++ text }
  writeMessage text := modify fun s => { s with messages := s.messages ++ text }

end Session

end CommandLine

end HandTemplate
