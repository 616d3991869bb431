import HandTemplate.Metadata.Parser
import HandTemplate.Program
import HandTemplate.Statement.Parser

/-!
# Reading programs

A program is a metadata block, a variations block, and nothing else but separators.
-/

namespace HandTemplate

/-- The nesting limit that applies where none is given. -/
def defaultMaxDepth : Nat := 64

namespace Program

open Rule (dropSeparators length_le_of_one length_le_of_two)

/-- What a message says in place of the body of the variations block. -/
def expectedBody : String := "'\x7b' or ':' after 'variations'"

/-- The rule for the variations block. -/
def variations (limit : Nat) : Rule (List Statement)
  | ⟨.keyword .variations, _⟩ :: ⟨.mark .equals, _⟩ :: ts => do
    let statements ← Statement.body (Statement.parse limit limit) expectedBody ts
    return statements.widen (length_le_of_two ts)
  | ⟨.keyword .variations, _⟩ :: ts => do
    let statements ← Statement.body (Statement.parse limit limit) expectedBody ts
    return statements.widen (length_le_of_one ts)
  | t :: _ => .error (.noVariations t.token t.position)
  | [] => .error (.endOfText "'variations' block")

/-- The program that some lexemes spell, where nesting goes no deeper than `limit`. -/
def parse (limit : Nat) (ts : List Lexeme) : Except GrammarFault Program := do
  let metadata ← Metadata.parse (dropSeparators ts)
  let body ← variations limit (dropSeparators metadata.rest)
  match dropSeparators body.rest with
  | [] => return ⟨metadata.value, body.value⟩
  | t :: _ => .error (.trailing t.token t.position)

end Program

end HandTemplate
