import HandTemplate.Metadata
import HandTemplate.Statement

/-!
# Programs

A program is a template as it was written: its metadata and the statements of its variations block.
-/

namespace HandTemplate

/-- A template as it was written. -/
structure Program where
  /-- The metadata block. -/
  metadata : Metadata
  /-- The statements of the variations block. -/
  body : List Statement
  deriving Repr

end HandTemplate
