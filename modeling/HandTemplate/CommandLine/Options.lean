import HandTemplate.Config

/-!
# Options of the command line

A command line consists of switches, parameters with a value each, and paths. All but one of the
switches and all parameters may be given once. `Options.parse` gives the options that a list of
arguments stands for.
-/

namespace HandTemplate

namespace CommandLine

/-- The options without a value. -/
inductive Switch where
  /-- Spreads the output over several lines. -/
  | pretty
  /-- Leaves out everything but the tiles. -/
  | tilesOnly
  /-- Lets no name stand for itself. -/
  | strict
  /-- Asks for more detail on what is done; may be given several times. -/
  | verbose
  deriving DecidableEq, Repr

namespace Switch

/-- All switches. -/
def all : List Switch := [pretty, tilesOnly, strict, verbose]

/-- The name of a switch after two hyphens. -/
def long : Switch → String
  | pretty => "pretty"
  | tilesOnly => "tiles-only"
  | strict => "strict"
  | verbose => "verbose"

/-- The name of a switch after one hyphen, if it has one. -/
def short? : Switch → Option Char
  | pretty => some 'p'
  | tilesOnly => some 't'
  | strict => none
  | verbose => some 'v'

end Switch

/-- The options with a value. -/
inductive Parameter where
  /-- A template to be compiled in place of files. -/
  | eval
  /-- What to produce. -/
  | emit
  /-- The directory that files are written to. -/
  | outDir
  /-- The file that holds a configuration. -/
  | config
  /-- A limit on nesting. -/
  | maxDepth
  /-- A limit on numbers of items. -/
  | maxItems
  deriving DecidableEq, Repr

namespace Parameter

/-- All parameters. -/
def all : List Parameter := [eval, emit, outDir, config, maxDepth, maxItems]

/-- The name of a parameter after two hyphens. -/
def long : Parameter → String
  | eval => "eval"
  | emit => "emit"
  | outDir => "out-dir"
  | config => "config"
  | maxDepth => "max-depth"
  | maxItems => "max-items"

/-- The name of a parameter after one hyphen, if it has one. -/
def short? : Parameter → Option Char
  | eval => some 'e'
  | outDir => some 'o'
  | config => some 'c'
  | emit | maxDepth | maxItems => none

end Parameter

/-- A wrong use of the command line. -/
inductive UsageError where
  /-- There is no option of this name. -/
  | unknownOption (name : String)
  /-- A switch is given a value. -/
  | unexpectedValue (switch : Switch)
  /-- A parameter is not followed by a value. -/
  | missingValue (parameter : Parameter)
  /-- A value is none of those that its parameter takes. -/
  | invalidValue (parameter : Parameter) (value : String)
  /-- A switch is given twice. -/
  | repeatedSwitch (switch : Switch)
  /-- A parameter is given twice. -/
  | repeatedParameter (parameter : Parameter)
  /-- A path is empty. -/
  | emptyPath
  /-- There is neither a path nor a template. -/
  | nothingToCompile
  /-- There are both paths and a template. -/
  | conflictingSources
  deriving DecidableEq, Repr

/-- The message of a wrong use. -/
def UsageError.message : UsageError → String
  | unknownOption name => "there is no option '" ++ name ++ "'"
  | unexpectedValue switch => "'--" ++ switch.long ++ "' takes no value"
  | missingValue parameter => "'--" ++ parameter.long ++ "' needs a value"
  | invalidValue parameter value =>
    "'" ++ value ++ "' is no value for '--" ++ parameter.long ++ "'"
  | repeatedSwitch switch => "'--" ++ switch.long ++ "' is given more than once"
  | repeatedParameter parameter => "'--" ++ parameter.long ++ "' is given more than once"
  | emptyPath => "a path must not be empty"
  | nothingToCompile => "there must be a path or '--eval'"
  | conflictingSources => "'--eval' excludes paths"

/-- What an argument turns out to be. -/
inductive Argument where
  /-- A switch. -/
  | switch (s : Switch)
  /-- A parameter with its value. -/
  | parameter (p : Parameter) (value : String)
  /-- A path. -/
  | path (path : String)
  deriving DecidableEq, Repr

namespace Argument

/-- Some arguments, and the parameter that still needs the next one for its value. -/
abbrev Group := List Argument × Option Parameter

/-- What the characters after a single hyphen stand for: any number of switches, and then perhaps a
parameter. What follows a parameter is its value, after an equals sign or immediately. -/
def cluster : List Char → Except UsageError Group
  | [] => .ok ([], none)
  | c :: cs =>
    match Switch.all.find? (·.short? = some c), Parameter.all.find? (·.short? = some c) with
    | some s, _ => (cluster cs).map fun (others, pending) => (switch s :: others, pending)
    | none, some p =>
      match cs with
      | [] => .ok ([], some p)
      | '=' :: value => .ok ([parameter p (String.ofList value)], none)
      | value => .ok ([parameter p (String.ofList value)], none)
    | none, none => .error (.unknownOption (String.ofList ['-', c]))

/-- What the characters after two hyphens stand for: a name, and perhaps a value after an equals
sign. -/
def named (cs : List Char) : Except UsageError Group :=
  let name := String.ofList (cs.takeWhile (· ≠ '='))
  let value? :=
    match cs.dropWhile (· ≠ '=') with
    | [] => none
    | _ :: value => some (String.ofList value)
  match Switch.all.find? (·.long = name), Parameter.all.find? (·.long = name), value? with
  | some s, _, none => .ok ([switch s], none)
  | some s, _, some _ => .error (.unexpectedValue s)
  | none, some p, none => .ok ([], some p)
  | none, some p, some value => .ok ([parameter p value], none)
  | none, none, _ => .error (.unknownOption ("--" ++ name))

/-- Whether an argument cannot be the value of a parameter before it. A hyphen alone can. -/
def isOption (argument : String) : Bool :=
  match argument.toList with
  | '-' :: _ :: _ => true
  | _ => false

/-- What some arguments turn out to be. All arguments after two hyphens alone are paths. -/
def parse (pending : Option Parameter) : List String → Except UsageError (List Argument)
  | [] =>
    match pending with
    | some p => .error (.missingValue p)
    | none => .ok []
  | argument :: arguments =>
    match pending with
    | some p =>
      if isOption argument then .error (.missingValue p)
      else (parse none arguments).map (parameter p argument :: ·)
    | none =>
      match argument.toList with
      | ['-', '-'] => .ok (arguments.map path)
      | '-' :: '-' :: cs => do
        let (group, pending) ← named cs
        return group ++ (← parse pending arguments)
      | '-' :: c :: cs => do
        let (group, pending) ← cluster (c :: cs)
        return group ++ (← parse pending arguments)
      | _ => (parse none arguments).map (path argument :: ·)

/-- The values that a parameter is given. -/
def valuesOf (p : Parameter) (arguments : List Argument) : List String :=
  arguments.filterMap fun
    | parameter q value => if q = p then some value else none
    | _ => none

/-- The paths among some arguments. -/
def paths (arguments : List Argument) : List String :=
  arguments.filterMap fun
    | path p => some p
    | _ => none

end Argument

/-- What is produced for a template. -/
inductive Product where
  /-- The compiled template. -/
  | json
  /-- The listing of its tokens. -/
  | tokens
  /-- The outline of the program. -/
  | ast
  deriving DecidableEq, Repr

namespace Product

/-- The word for a product, which also is the extension of its files. -/
def word : Product → String
  | json => "json"
  | tokens => "tokens"
  | ast => "ast"

/-- The product that a word stands for. -/
def ofWord? (word : String) : Option Product := [json, tokens, ast].find? (·.word = word)

end Product

/-- Where templates come from. -/
inductive Input where
  /-- A template that is an argument itself. -/
  | template (source : String)
  /-- Files, and directories with files in them. -/
  | paths (paths : List String)
  deriving DecidableEq, Repr

/-- The options of a run. -/
structure Options where
  /-- Where templates come from. -/
  input : Input
  /-- What is produced for each of them. -/
  product : Product := .json
  /-- Whether the product is spread over several lines. -/
  pretty : Bool := false
  /-- Whether the product holds nothing but the tiles. -/
  tilesOnly : Bool := false
  /-- The directory that files are written to. -/
  outDir : Option String := none
  /-- The file that holds a configuration. -/
  configFile : Option String := none
  /-- A limit on nesting that comes before the configuration's. -/
  maxDepth : Option Nat := none
  /-- A limit on numbers of items that comes before the configuration's. -/
  maxItems : Option Nat := none
  /-- Whether no name may stand for itself, whatever the configuration says. -/
  strict : Bool := false
  deriving DecidableEq, Repr

namespace Options

/-- The value of a parameter, which may be given once. -/
def single (arguments : List Argument) (p : Parameter) : Except UsageError (Option String) :=
  match Argument.valuesOf p arguments with
  | [] => .ok none
  | [value] => .ok (some value)
  | _ => .error (.repeatedParameter p)

/-- Whether a switch is given, which may be done once. -/
def given (arguments : List Argument) (s : Switch) : Except UsageError Bool :=
  match arguments.count (.switch s) with
  | 0 => .ok false
  | 1 => .ok true
  | _ => .error (.repeatedSwitch s)

/-- The value of a parameter that must not be empty. -/
def nonempty (p : Parameter) (value : String) : Except UsageError String :=
  if value = "" then .error (.invalidValue p value) else .ok value

/-- The number that a value spells, which may have a plus sign in front of it and has to fit into 64
bits. -/
def size (p : Parameter) (value : String) : Except UsageError Nat :=
  let digits :=
    match value.toList with
    | '+' :: digits => digits
    | digits => digits
  let n := digits.foldl (fun n c => 10 * n + (c.toNat - '0'.toNat)) 0
  if digits.isEmpty || !digits.all Char.isDigit || UInt64.size ≤ n then
    .error (.invalidValue p value)
  else .ok n

/-- The product that a value names. -/
def productOf (p : Parameter) (value : String) : Except UsageError Product :=
  match Product.ofWord? value with
  | some product => .ok product
  | none => .error (.invalidValue p value)

/-- The value of a parameter, if it is given, as what `read` makes of it. -/
def optional {α : Type} (arguments : List Argument) (p : Parameter)
    (read : Parameter → String → Except UsageError α) : Except UsageError (Option α) := do
  match ← single arguments p with
  | some value => return some (← read p value)
  | none => return none

/-- Where the templates come from: a template or some paths, but not both. -/
def inputOf (arguments : List Argument) : Except UsageError Input := do
  match ← single arguments .eval, Argument.paths arguments with
  | some source, [] => return .template source
  | some _, _ => throw .conflictingSources
  | none, [] => throw .nothingToCompile
  | none, paths => if paths.contains "" then throw .emptyPath else return .paths paths

/-- The options that a list of arguments stands for. -/
def parse (arguments : List String) : Except UsageError Options := do
  let arguments ← Argument.parse none arguments
  return {
    input := ← inputOf arguments
    product := (← optional arguments .emit productOf).getD .json
    pretty := ← given arguments .pretty
    tilesOnly := ← given arguments .tilesOnly
    outDir := ← optional arguments .outDir nonempty
    configFile := ← optional arguments .config nonempty
    maxDepth := ← optional arguments .maxDepth size
    maxItems := ← optional arguments .maxItems size
    strict := ← given arguments .strict }

end Options

end CommandLine

end HandTemplate
