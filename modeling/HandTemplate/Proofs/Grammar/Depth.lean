import HandTemplate.Program

/-!
# Depths of syntax trees

The depth of a tree, and what a limit on nesting bounds in its place: there the left operand of an
operation and the target of an index stand at the level of the whole, and so add nothing to it.
-/

namespace HandTemplate

namespace Expr

mutual

/-- How many levels an expression reaches down, where the left operand of an operation and the
target of an index stand `first` levels below it and every other part one level. -/
def height (first : Nat) : Expr → Nat
  | number _ _ | text _ _ | tile _ _ | identifier _ _ | range _ _ _ => 0
  | tuple elements _ => heights first elements + 1
  | call _ arguments _ => heights first arguments + 1
  | index target place _ => max (height first target + first) (height first place + 1)
  | binary _ left right _ => max (height first left + first) (height first right + 1)

/-- How many levels the deepest of some expressions reaches down. -/
def heights (first : Nat) : List Expr → Nat
  | [] => 0
  | e :: es => max (height first e) (heights first es)

end

end Expr

namespace Statement

mutual

/-- How many levels a statement reaches down, with `first` as for expressions. The arguments of a
call and the body of a loop stand one level below it, the source of a loop at its level. -/
def height (first : Nat) : Statement → Nat
  | assign _ value _ => value.height first
  | foreach _ source body _ => max (source.height first) (heights first body + 1)
  | call _ arguments _ => Expr.heights first arguments + 1

/-- How many levels the deepest of some statements reaches down. -/
def heights (first : Nat) : List Statement → Nat
  | [] => 0
  | s :: statements => max (height first s) (heights first statements)

end

end Statement

namespace Program

/-- The depth of the statements of a program: every part of a tree stands one level below it. -/
def depth (program : Program) : Nat := Statement.heights 1 program.body

/-- The levels of the statements of a program, where left operands and targets of indices stand at
the level of the whole. -/
def levels (program : Program) : Nat := Statement.heights 0 program.body

end Program

end HandTemplate
