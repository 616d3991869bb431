import HandTemplate.Metadata
import HandTemplate.Rule

/-!
# Reading metadata

The metadata block holds entries between braces. An entry is a key and a value, with an equals sign
or a colon between them or nothing at all; entries may be separated by line ends, commas and
semicolons, and need not be. The entries are stored one after the other, so the last value of a key
counts.
-/

namespace HandTemplate

namespace Datum

open Rule (expecting length_le_of_one length_lt_of_one)

/-- The value that one token is, if it is one. -/
def ofToken? : Token → Option Datum
  | .text s | .tile s | .identifier s => some (text s)
  | .integer n => some (integer n)
  | .real x => some (real x)
  | .bool b => some (bool b)
  | .null => some null
  | _ => none

/-- The rule for a value that is no list. -/
def single : Rule Datum
  | [] => .error (expecting "metadata value" [])
  | t :: ts =>
    match ofToken? t.token with
    | some value => .ok ⟨value, ts, length_lt_of_one ts⟩
    | none => .error (expecting "metadata value" (t :: ts))

/-- Whether a token only separates the items of a list. -/
def isListSeparator (token : Token) : Bool := token = .newline || token = .mark .comma

/-- The values up to the end of a list whose delimiter was opened at `opened`. -/
def items (delimiter : Delimiter) (opened : Position) (ts : List Lexeme) :
    Except GrammarFault (Parsed (List Datum) ts.length) :=
  match h : ts.dropWhile (isListSeparator ·.token) with
  | [] => .error (.unclosed delimiter opened)
  | t :: after =>
    have hafter : after.length < ts.length := by
      have := (List.dropWhile_sublist (p := (isListSeparator ·.token)) (l := ts)).length_le
      rw [h] at this
      exact this
    if t.token = .mark delimiter.closing then .ok ⟨[], after, hafter⟩
    else do
      let first ← single (t :: after)
      have hfirst : first.rest.length < ts.length := Nat.lt_of_lt_of_le first.shorter hafter
      let others ← items delimiter opened first.rest
      return ⟨first.value :: others.value, others.rest, Nat.lt_trans others.shorter hfirst⟩
termination_by ts.length

/-- The rule for a value. -/
def parse : Rule Datum
  | ⟨.mark .leftParen, opened⟩ :: ts => do
    let values ← items .paren opened ts
    return (values.map list).widen (length_le_of_one ts)
  | ⟨.mark .leftBracket, opened⟩ :: ts => do
    let values ← items .bracket opened ts
    return (values.map list).widen (length_le_of_one ts)
  | ts => single ts

end Datum

namespace Metadata

open Rule (expecting dropNewlines length_dropNewlines_le length_lt_of_one)

/-- The rule for a key. -/
def key : Rule String
  | ⟨.identifier name, _⟩ :: ts | ⟨.text name, _⟩ :: ts | ⟨.tile name, _⟩ :: ts =>
    .ok ⟨name, ts, length_lt_of_one ts⟩
  | ts => .error (expecting "metadata key" ts)

/-- Whether a token may stand between a key and its value, or between the keyword and the block. -/
def isAssignment (token : Token) : Bool := token = .mark .equals || token = .mark .colon

/-- The lexemes after an equals sign or a colon, if they begin with one. -/
def dropAssignment : List Lexeme → List Lexeme
  | t :: ts => if isAssignment t.token then ts else t :: ts
  | [] => []

/-- No lexemes are added where a sign is dropped. -/
theorem length_dropAssignment_le (ts : List Lexeme) : (dropAssignment ts).length ≤ ts.length := by
  fun_cases dropAssignment ts <;> simp

/-- The rule for an entry: its key and its value. -/
def entry : Rule (String × Datum) := fun ts => do
  let name ← key ts
  let value ← Datum.parse (dropAssignment name.rest)
  return ⟨(name.value, value.value), value.rest, by
    have := name.shorter
    have := length_dropAssignment_le name.rest
    have := value.shorter
    omega⟩

/-- Whether a token only separates entries. -/
def isEntrySeparator (token : Token) : Bool :=
  token = .newline || token = .mark .comma || token = .mark .semicolon

/-- The entries up to the closing brace of a block that was opened at `opened`. -/
def blockEntries (opened : Position) (ts : List Lexeme) :
    Except GrammarFault (Parsed (List (String × Datum)) ts.length) :=
  match h : ts.dropWhile (isEntrySeparator ·.token) with
  | [] => .error (.unclosed .brace opened)
  | t :: after =>
    have hafter : after.length < ts.length := by
      have := (List.dropWhile_sublist (p := (isEntrySeparator ·.token)) (l := ts)).length_le
      rw [h] at this
      exact this
    if t.token = .mark .rightBrace then .ok ⟨[], after, hafter⟩
    else do
      let first ← entry (t :: after)
      have hfirst : first.rest.length < ts.length := Nat.lt_of_lt_of_le first.shorter hafter
      let others ← blockEntries opened first.rest
      return ⟨first.value :: others.value, others.rest, Nat.lt_trans others.shorter hfirst⟩
termination_by ts.length

/-- The rule for the metadata block. -/
def parse : Rule Metadata
  | ⟨.keyword .metadata, _⟩ :: ts =>
    match h : dropNewlines (dropAssignment ts) with
    | ⟨.mark .leftBrace, opened⟩ :: after => do
      let stored ← blockEntries opened after
      return (stored.map Record.ofList).widen (by
        have := length_dropNewlines_le (dropAssignment ts)
        have := length_dropAssignment_le ts
        simp only [h, List.length_cons] at *
        omega)
    | ts => .error (expecting "'\x7b' after 'metadata'" ts)
  | t :: _ => .error (.noMetadata t.token t.position)
  | [] => .error (.endOfText "'metadata' block")

end Metadata

end HandTemplate
