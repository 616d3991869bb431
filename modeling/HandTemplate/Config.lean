import HandTemplate.Program.Parser

/-!
# Limits of an expansion
-/

namespace HandTemplate

/-- The limit on numbers of items that applies where none is given. -/
def defaultMaxItems : Nat := 100000

/-- The limits of an expansion, and how it treats names that are bound to nothing. -/
structure Config where
  /-- How deep blocks and expressions may be nested, and loops and calls while they run. -/
  maxDepth : Nat := defaultMaxDepth
  /-- How many items a range, a sequence, a joined list or the orderings of a list may have, and how
  many variations there may be. -/
  maxItems : Nat := defaultMaxItems
  /-- Whether a name that is bound to nothing stands for itself in tuples and tile codes. -/
  symbolAtoms : Bool := true
  deriving DecidableEq, Repr

end HandTemplate
