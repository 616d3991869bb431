import HandTemplate.CommandLine.Batch

/-!
# The program

The surroundings of a run are the file system and the standard streams.
-/

namespace HandTemplate

namespace CommandLine

/-- The number of an error of the file system, which is given with either sign. -/
def errorNumber (code : UInt32) : UInt32 := min code (0 - code)

/-- The failed access that an error of the file system stands for. -/
def fileError (e : IO.Error) : FileError :=
  match e with
  | .noFileOrDirectory .. => .notFound
  | .alreadyExists .. => .occupied
  | .inappropriateType _ code _ | .invalidArgument _ code _ =>
    match errorNumber code with
    | 20 => .notDirectory
    | 21 => .isDirectory
    | 36 => .tooLong
    | _ => .other (toString e)
  | _ => .other (toString e)

/-- Runs an action on files. -/
def attempt {α : Type} (action : IO α) : IO (Except FileError α) := do
  match ← action.toBaseIO with
  | .ok value => return .ok value
  | .error e => return .error (fileError e)

/-- What an entry of a directory is, with everything below it. -/
partial def snapshot (entry : IO.FS.DirEntry) : IO (FileTree Unit) := do
  if ← entry.path.isDir then
    let entries ← entry.path.readDir
    return .directory (← entries.toList.mapM fun e => return (e.fileName, ← snapshot e))
  return .file ()

/-- The directory at a path, if there is one, as the entry of itself. -/
def directoryAt? (path : String) : IO (Option IO.FS.DirEntry) := do
  if Path.isTooLong path then return none
  match ← (IO.FS.realPath path).toBaseIO with
  | .ok realPath => return if ← realPath.isDir then some ⟨realPath, "."⟩ else none
  | .error _ => return none

instance : Host IO where
  directory? path := do (← directoryAt? path).mapM snapshot
  readText path := attempt (IO.FS.readFile path)
  makeDirectory path := do
    match ← attempt (IO.FS.createDir path) with
    | .error .occupied =>
      return if (← directoryAt? path).isSome then .ok () else .error .occupied
    | result => return result
  writeText path text := attempt (IO.FS.writeFile path text)
  writeOut text := do
    let stream ← IO.getStdout
    stream.putStr text
    stream.flush
  writeMessage text := do (← IO.getStderr).putStr text

end CommandLine

end HandTemplate

/-- Runs the program with its arguments. -/
def main (arguments : List String) : IO UInt32 :=
  return (← HandTemplate.CommandLine.run (m := IO) arguments).code
