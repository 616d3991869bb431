import HandTemplate.Expansion.Execution
import HandTemplate.Program.Parser
import HandTemplate.Token.Lexer

/-!
# Compiling templates

Compiling a template reads its tokens, its structure, and then expands it. The first stage that
fails ends the compilation with its fault.
-/

namespace HandTemplate

/-- A fault of a compilation. -/
inductive CompileFault where
  /-- The text is no sequence of tokens. -/
  | lex (e : LexicalFault)
  /-- The tokens are no program. -/
  | parse (e : GrammarFault)
  /-- The program cannot be expanded. -/
  | eval (e : ExpansionFault)
  deriving DecidableEq, Repr

namespace CompileFault

/-- The position of a fault, if it has one. -/
def position? : CompileFault → Option Position
  | lex e => some e.position
  | parse e => e.position?
  | eval e => some e.position

/-- The message of a fault. -/
def message : CompileFault → String
  | lex e => e.message
  | parse e => e.message
  | eval e => e.message

end CompileFault

/-- The program that a text spells, where nesting goes no deeper than `limit`. -/
def Program.ofSource (source : String) (limit : Nat) : Except CompileFault Program := do
  let lexemes ← (tokenize source).mapError .lex
  (Program.parse limit lexemes).mapError .parse

/-- The compiled template of a text. -/
def compile (source : String) (config : Config) : Except CompileFault Template := do
  let program ← Program.ofSource source config.maxDepth
  let variations ← (program.expand config).mapError .eval
  return ⟨program.metadata, variations⟩

end HandTemplate
