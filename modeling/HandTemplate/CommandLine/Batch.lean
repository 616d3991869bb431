import HandTemplate.CommandLine.Host
import HandTemplate.CommandLine.Options
import HandTemplate.Config.Parser
import HandTemplate.Outline.Program
import HandTemplate.Template

/-!
# Compiling several templates in a run

A run first reads its configuration and all its templates, and ends early if one of them cannot be
read. Then each template is compiled on its own; one that fails is reported and does not stop the
others. Of several templates that would be written to the same file only the first one may do so.
-/

namespace HandTemplate

namespace CommandLine

variable {m : Type → Type} [Host m]

/-! ## Configuration -/

/-- The configuration in which the options come before what a file says. -/
def Options.override (options : Options) (config : Config) : Config :=
  { maxDepth := options.maxDepth.getD config.maxDepth
    maxItems := options.maxItems.getD config.maxItems
    symbolAtoms := config.symbolAtoms && !options.strict }

/-- The message of a text that is no configuration. -/
def readErrorText : Json.ReadError → String
  | .malformed => "the text is no JSON document"
  | .truncated => "the JSON document ends too early"
  | .unsuitable => "the JSON document does not describe a configuration"

/-- The configuration of a run, or the message why there is none. -/
def configOf (options : Options) : m (Except String Config) := do
  match options.configFile with
  | none => return .ok (options.override {})
  | some path =>
    match ← Host.readText path with
    | .error e => return .error e.message
    | .ok text =>
      match Config.ofJson text with
      | .error e => return .error (readErrorText e)
      | .ok config => return .ok (options.override config)

/-! ## Templates -/

/-- Whether a name is that of a template which is taken from a directory. -/
def isSelectable (name : String) : Bool :=
  Path.extension? name = some "mtl" && name.toList.head? ≠ some '_'

/-- The name of what is produced from a template of the given name. A name that is nothing but a
point would mean the directory itself and takes a second point. -/
def productName (name : String) : String :=
  if Path.stem name = "." then ".." else Path.stem name

/-- A template that was chosen for a run. -/
structure Selected where
  /-- The path of the template, which its messages begin with. -/
  path : String
  /-- The path of its product within the directory for output, without the extension. -/
  output : String
  deriving DecidableEq, Repr

/-- A template that was read. -/
structure Job extends Selected where
  /-- The template itself. -/
  text : String
  deriving DecidableEq, Repr

/-- The template to which some names lead from a directory. -/
def selectBelow (directory : String) (names : List String) : Selected :=
  ⟨names.foldl Path.join directory,
    String.intercalate "/" (names.dropLast ++ names.getLast?.toList.map productName)⟩

/-- The templates below a directory, in the order of their names. A file whose path is too long is
passed over. -/
def templatesBelow (directory : String) (tree : FileTree Unit) : List Selected :=
  let names := tree.files.map Prod.fst
  let found := (names.filter fun names => names.getLast?.any isSelectable).map
    (selectBelow directory)
  found.filter fun selected => !Path.isTooLong selected.path

/-- The path of the first directory below a directory that cannot be searched, because its path is
too long. -/
def unsearchable? (directory : String) (tree : FileTree Unit) : Option String :=
  (tree.directories.map (List.foldl Path.join directory)).find? Path.isTooLong

/-- The message that a directory cannot be searched. -/
def unsearchable (path : String) : String :=
  "IO error for operation on " ++ path ++ ": " ++ FileError.tooLong.message

/-- The file that a path itself names, whatever it is called. -/
def selectFile (path : String) : Selected :=
  ⟨path, ((Path.fileName? path).map Path.stem).getD "template"⟩

/-- The templates that a path stands for, or the message why they cannot be found. -/
def select (path : String) : m (Except String (List Selected)) := do
  match ← Host.directory? path with
  | some tree =>
    match unsearchable? path tree with
    | some directory => return .error (unsearchable directory)
    | none => return .ok (templatesBelow path tree)
  | none => return .ok [selectFile path]

/-- The templates that some paths stand for, one after the other, or the message why those of one
path cannot be found. -/
def selectAll : List String → m (Except String (List Selected))
  | [] => return .ok []
  | path :: paths => do
    match ← select path with
    | .error text => return .error text
    | .ok first => return (← selectAll paths).map (first ++ ·)

/-- The message that a template cannot be read. -/
def unreadable (path : String) (e : FileError) : String :=
  "Failed to read the input file '" ++ path ++ "'. Perhaps this file does not exist? (" ++
    e.message ++ ")"

/-- Reads some templates, or gives the message of the first that cannot be read. -/
def readAll : List Selected → m (Except String (List Job))
  | [] => return .ok []
  | selected :: others => do
    match ← Host.readText selected.path with
    | .error e => return .error (unreadable selected.path e)
    | .ok text =>
      return (← readAll others).map ({ toSelected := selected, text } :: ·)

/-- The templates of a run, or the message why they cannot be read. -/
def jobs : Input → m (Except String (List Job))
  | .template text => return .ok [{ path := "<eval>", output := "eval", text }]
  | .paths paths => do
    match ← selectAll paths with
    | .error text => return .error text
    | .ok selected => readAll selected

/-! ## Products -/

/-- What is produced for a template. -/
def produce (options : Options) (config : Config) (text : String) : Except CompileFault String :=
  match options.product with
  | .tokens => do
    let lexemes ← (tokenize text).mapError .lex
    return Lexeme.listing lexemes
  | .ast => do
    let program ← Program.ofSource text config.maxDepth
    return program.outline.render options.pretty
  | .json => do
    let template ← compile text config
    let style : Json.Style := if options.pretty then .pretty else .compact
    let document := if options.tilesOnly then template.tilesJson else template.toJson
    return document.render style

/-- The file that the product of a job goes to, if it goes to a file. -/
def target? (options : Options) (job : Job) : Option String :=
  options.outDir.map fun directory =>
    Path.join directory (job.output ++ "." ++ options.product.word)

/-- Prints a line on the stream for messages. -/
def report (text : String) : m Unit := Host.writeMessage (text ++ "\n")

/-- Makes a directory along some steps, which are given from the inside to the outside. Only if a
directory on the way is missing, that one is made first. -/
def makeDirectories : (steps : List String) → m (Except FileError Unit)
  | [] => return .ok ()
  | step :: outer =>
    if Path.isIdle step then makeDirectories outer
    else do
      let path := Path.ofSteps (step :: outer).reverse
      match ← Host.makeDirectory path with
      | .error .notFound =>
        match ← makeDirectories outer with
        | .error e => return .error e
        | .ok () => Host.makeDirectory path
      | result => return result

/-- Brings a product to where it goes, or gives the message why that fails. The directory of a file
is made before the file is written. -/
def deliver (target : Option String) (product : String) : m (Except String Unit) := do
  match target with
  | none =>
    Host.writeOut (product ++ "\n")
    return .ok ()
  | some path =>
    match ← makeDirectories (Path.steps (Path.parent path)).reverse with
    | .error e => return .error e.message
    | .ok () => return (← Host.writeText path product).mapError FileError.message

/-- Produces what is asked for from a template, and tells whether that worked. -/
def runJob (options : Options) (config : Config) (job : Job) (target : Option String) : m Bool := do
  match produce options config job.text with
  | .error e =>
    report (job.path ++ ": " ++ e.message)
    return false
  | .ok product =>
    match ← deliver target product with
    | .error text =>
      report (job.path ++ ": " ++ text)
      return false
    | .ok () => return true

/-- Runs some jobs, where the given files belong to earlier ones, and tells whether all of that
worked. A job whose file belongs to an earlier one is left out, even if the earlier one failed. -/
def runJobs (options : Options) (config : Config) : (claimed : List String) → List Job → m Bool
  | _, [] => return true
  | claimed, job :: others => do
    let target := target? options job
    let worked ←
      if target.any claimed.contains then do
        report (job.path ++ ": another template already writes '" ++ target.getD "" ++ "'")
        pure false
      else runJob options config job target
    let othersWorked ← runJobs options config (target.toList ++ claimed) others
    return worked && othersWorked

/-! ## Runs -/

/-- How a run ends. -/
inductive Outcome where
  /-- Everything worked. -/
  | success
  /-- Something could not be read, compiled or written. -/
  | failure
  /-- The arguments are wrong. -/
  | misuse
  deriving DecidableEq, Repr

/-- The exit code of a run. -/
def Outcome.code : Outcome → UInt32
  | success => 0
  | failure => 1
  | misuse => 2

/-- A run with the given options. -/
def runWith (options : Options) : m Outcome := do
  match ← configOf options with
  | .error text =>
    report ("Failed to load configuration: " ++ text)
    return .failure
  | .ok config =>
    match ← jobs options.input with
    | .error text =>
      report text
      return .failure
    | .ok jobs => if ← runJobs options config [] jobs then return .success else return .failure

/-- A run with the given arguments. -/
def run (arguments : List String) : m Outcome := do
  match Options.parse arguments with
  | .error e =>
    report ("error: " ++ e.message)
    return .misuse
  | .ok options => runWith options

end CommandLine

end HandTemplate
