import HandTemplate.Proofs.Expansion.Dependence

/-!
# Names of a template

The names that the statements of a template mention and those that they bind; and a template in
which some names are written as tile codes, between quotes.
-/

namespace HandTemplate

namespace Statement

mutual

/-- The names that a statement mentions, those of the builtins that it calls among them. -/
def mentioned : Statement → List String
  | assign _ value _ => value.names
  | foreach _ source body _ => source.names ++ mentionedOf body
  | call name arguments _ => name :: Expr.namesOf arguments

/-- The names that some statements mention. -/
def mentionedOf : List Statement → List String
  | [] => []
  | s :: statements => s.mentioned ++ mentionedOf statements

end

mutual

/-- The names that a statement binds, whether in the scope of its block or in a loop. -/
def bound : Statement → List String
  | assign target _ _ => target.names
  | foreach binding _ body _ => binding.names ++ boundOf body
  | call _ _ _ => []

/-- The names that some statements bind. -/
def boundOf : List Statement → List String
  | [] => []
  | s :: statements => s.bound ++ boundOf statements

end

end Statement

/-! ## Quoting -/

section
variable (atoms : String → Bool)

namespace Expr

mutual

/-- An expression in which some names are quoted. Called names are no expressions. -/
def quoting : Expr → Expr
  | number value p => number value p
  | text value p => text value p
  | tile code p => tile code p
  | identifier name p => if atoms name then tile name p else identifier name p
  | range first last p => range first last p
  | tuple elements p => tuple (quotingOf elements) p
  | call name arguments p => call name (quotingOf arguments) p
  | index target place p => index target.quoting place.quoting p
  | binary operator left right p => binary operator left.quoting right.quoting p

/-- Some expressions in which some names are quoted. -/
def quotingOf : List Expr → List Expr
  | [] => []
  | e :: es => e.quoting :: quotingOf es

end

end Expr

namespace Statement

mutual

/-- A statement in which some names are quoted. -/
def quoting : Statement → Statement
  | assign target value p => assign target (value.quoting atoms) p
  | foreach binding source body p => foreach binding (source.quoting atoms) (quotingOf body) p
  | call name arguments p => call name (Expr.quotingOf atoms arguments) p

/-- Some statements in which some names are quoted. -/
def quotingOf : List Statement → List Statement
  | [] => []
  | s :: statements => s.quoting :: quotingOf statements

end

/-- A statement in which atoms are quoted is a loop if it was one. -/
@[simp] theorem quoting_isLoop (s : Statement) : (s.quoting atoms).isLoop = s.isLoop := by
  cases s <;> rfl

/-- A statement in which atoms are quoted stands where it stood. -/
@[simp] theorem quoting_position (s : Statement) : (s.quoting atoms).position = s.position := by
  cases s <;> rfl

/-- Atoms are quoted in statements by quoting them in each one. -/
theorem quotingOf_eq_map (statements : List Statement) :
    quotingOf atoms statements = statements.map (quoting atoms) := by
  induction statements with
  | nil => rfl
  | cons s statements ih => rw [quotingOf, ih, List.map_cons]

/-- Among statements in which atoms are quoted there is a loop if there was one. -/
@[simp] theorem any_quotingOf_isLoop (statements : List Statement) :
    (quotingOf atoms statements).any isLoop = statements.any isLoop := by
  rw [quotingOf_eq_map, List.any_map]
  exact congrArg statements.any (funext (quoting_isLoop atoms))

/-- The last one of the statements in which atoms are quoted stands where it stood. -/
@[simp] theorem getLast?_quotingOf_position (statements : List Statement) :
    (quotingOf atoms statements).getLast?.map position = statements.getLast?.map position := by
  rw [quotingOf_eq_map, List.getLast?_map, Option.map_map]
  exact congrArg (Option.map · statements.getLast?) (funext (quoting_position atoms))

end Statement

/-- A program in which some names are quoted in the body. -/
def Program.quoting (program : Program) : Program :=
  { program with body := Statement.quotingOf atoms program.body }

end

/-! ## Quoting nothing -/

mutual

/-- An expression stays as it is where no name is an atom. -/
theorem Expr.quoting_none : (e : Expr) → e.quoting (fun _ => false) = e
  | .number _ _ | .text _ _ | .tile _ _ | .identifier _ _ | .range _ _ _ => rfl
  | .tuple elements _ => by rw [quoting, quotingOf_none elements]
  | .call _ arguments _ => by rw [quoting, quotingOf_none arguments]
  | .index target place _ => by rw [quoting, quoting_none target, quoting_none place]
  | .binary _ left right _ => by rw [quoting, quoting_none left, quoting_none right]

/-- Expressions stay as they are where no name is an atom. -/
theorem Expr.quotingOf_none : (es : List Expr) → quotingOf (fun _ => false) es = es
  | [] => rfl
  | e :: es => by rw [quotingOf, quoting_none e, quotingOf_none es]

end

mutual

/-- A statement stays as it is where no name is an atom. -/
theorem Statement.quoting_none : (s : Statement) → s.quoting (fun _ => false) = s
  | .assign _ value _ => by rw [quoting, value.quoting_none]
  | .foreach _ source body _ => by rw [quoting, source.quoting_none, quotingOf_none body]
  | .call _ arguments _ => by rw [quoting, Expr.quotingOf_none arguments]

/-- Statements stay as they are where no name is an atom. -/
theorem Statement.quotingOf_none : (statements : List Statement) →
    quotingOf (fun _ => false) statements = statements
  | [] => rfl
  | s :: statements => by rw [quotingOf, quoting_none s, quotingOf_none statements]

end

/-- A program in which nothing is quoted is the program. -/
theorem Program.quoting_none (program : Program) : program.quoting (fun _ => false) = program := by
  rw [quoting, Statement.quotingOf_none]

end HandTemplate
