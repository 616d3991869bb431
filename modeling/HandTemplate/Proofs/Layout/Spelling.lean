import HandTemplate.Proofs.Grammar.Spelling
import HandTemplate.Statement

/-!
# How statements are written

The layouts of statements as a relation between lexemes and statements, without regard to how they
are read. A body stands in braces, before which a colon changes nothing, or after a colon up to
`End`, with or without a colon of its own; or it stays open where the enclosing brace or the text
ends. The header of a loop over one name stands in parentheses or not, that of a loop over several
names has these in parentheses once more or not; and several names that take the elements of a value
stand in parentheses or not. Line ends and semicolons stand between statements, before the first and
after the last, in any number, and are left out where the next statement cannot be taken for a part
of the one before.

What may be written depends on what comes next, so the relation is between lexemes and all that
follows them. It counts levels of nesting as that of expressions does: a loop takes one for its
body and a call one for its arguments.
-/

namespace HandTemplate

namespace Grammar

/-- How constructs of type `α` are written: by which lexemes, which take how many levels, in front
of what. -/
abbrev Writing (α : Type) := Nat → List Lexeme → List Lexeme → α → Prop

/-- Some lexemes only separate statements. -/
def Separators (ts : List Lexeme) : Prop :=
  ∀ t ∈ ts, t.token = .newline ∨ t.token = .mark .semicolon

/-- Names with a comma between any two. -/
inductive Names : List Lexeme → List String → Prop
  | one {name : String} {p : Position} : Names [⟨.identifier name, p⟩] [name]
  | more {name : String} {p q : Position} {ps : List Lexeme} {names : List String}
    (hnames : Names ps names) :
    Names (⟨.identifier name, p⟩ :: ⟨.mark .comma, q⟩ :: ps) (name :: names)

/-- Names are one at least. -/
theorem Names.exists_cons {ps : List Lexeme} {names : List String} (h : Names ps names) :
    ∃ name others, names = name :: others := by
  cases h <;> exact ⟨_, _, rfl⟩

/-- The target of an assignment that starts at a position. -/
inductive Target : Position → List Lexeme → Binding → Prop
  /-- One name. -/
  | name {name : String} {p : Position} : Target p [⟨.identifier name, p⟩] (.name name)
  /-- Several names, two at least. -/
  | bare {name : String} {p q : Position} {ps : List Lexeme} {names : List String}
    (hnames : Names ps names) :
    Target p (⟨.identifier name, p⟩ :: ⟨.mark .comma, q⟩ :: ps) (.tuple (name :: names))
  /-- Any number of names in parentheses. -/
  | parens {p : Position} {k : Nat} {ps : List Lexeme} {names : List String}
    (hnames : Series Name .paren k ps names) :
    Target p (⟨.mark .leftParen, p⟩ :: ps) (.tuple names)

/-- The binding of a loop, and where it opens parentheses around the whole header if it does. -/
inductive Bound : List Lexeme → Binding → Option Position → Prop
  /-- One name. -/
  | name {name : String} {p : Position} : Bound [⟨.identifier name, p⟩] (.name name) none
  /-- One name, and parentheses around the header. -/
  | wrapped {name : String} {opened p : Position} :
    Bound [⟨.mark .leftParen, opened⟩, ⟨.identifier name, p⟩] (.name name) (some opened)
  /-- Several names, two at least. -/
  | bare {name : String} {p q : Position} {ps : List Lexeme} {names : List String}
    (hnames : Names ps names) :
    Bound (⟨.identifier name, p⟩ :: ⟨.mark .comma, q⟩ :: ps) (.tuple (name :: names)) none
  /-- Several names in parentheses, two at least. -/
  | parens {name : String} {opened p q c : Position} {ps : List Lexeme} {names : List String}
    (hnames : Names ps names) :
    Bound (⟨.mark .leftParen, opened⟩ :: ⟨.identifier name, p⟩ :: ⟨.mark .comma, q⟩ ::
      (ps ++ [⟨.mark .rightParen, c⟩])) (.tuple (name :: names)) none
  /-- Any number of names in parentheses, and parentheses around the header. -/
  | twice {opened inner : Position} {k : Nat} {ps : List Lexeme} {names : List String}
    (hnames : Series Name .paren k ps names) :
    Bound (⟨.mark .leftParen, opened⟩ :: ⟨.mark .leftParen, inner⟩ :: ps) (.tuple names)
      (some opened)

/-- The header of a loop after its keyword: the binding and the source. -/
inductive Header : Nat → List Lexeme → Binding → Expr → Prop
  | plain {binding : Binding} {source : Expr} {i : Position} {k : Nat} {hs ps : List Lexeme}
    (hbound : Bound hs binding none) (hsource : Expression k ps source) :
    Header k (hs ++ ⟨.keyword .within, i⟩ :: ps) binding source
  | wrapped {binding : Binding} {source : Expr} {opened i c : Position} {k : Nat}
    {hs ps : List Lexeme} (hbound : Bound hs binding (some opened))
    (hsource : Expression k ps source) :
    Header k (hs ++ ⟨.keyword .within, i⟩ :: (ps ++ [⟨.mark .rightParen, c⟩])) binding source

/-- The end of a body in braces. -/
inductive Braced : List Lexeme → List Lexeme → Prop
  | brace {p : Position} {rest : List Lexeme} : Braced [⟨.mark .rightBrace, p⟩] rest

/-- The end of a body after a colon. -/
inductive Ended : List Lexeme → List Lexeme → Prop
  /-- The word alone. -/
  | word {p : Position} {rest : List Lexeme} (hrest : ∀ t ∈ rest.head?, t.token ≠ .mark .colon) :
    Ended [⟨.keyword .ending, p⟩] rest
  /-- The word and a colon. -/
  | colon {p q : Position} {rest : List Lexeme} :
    Ended [⟨.keyword .ending, p⟩, ⟨.mark .colon, q⟩] rest
  /-- Nothing, where the enclosing brace or the text ends. -/
  | left {rest : List Lexeme} (hrest : ∀ t ∈ rest.head?, t.token = .mark .rightBrace) :
    Ended [] rest

section
variable (statement : Writing Statement)

/-- Statements and what ends the body that they make. -/
inductive Statements (ending : List Lexeme → List Lexeme → Prop) : Writing (List Statement)
  | done {ss es rest : List Lexeme} (hss : Separators ss) (hending : ending es rest) :
    Statements ending 0 (ss ++ es) rest []
  | more {ss p ps rest : List Lexeme} {k m : Nat} {s : Statement} {statements : List Statement}
    (hss : Separators ss) (hfirst : statement k p (ps ++ rest) s)
    (hothers : Statements ending m ps rest statements) :
    Statements ending (max k m) (ss ++ (p ++ ps)) rest (s :: statements)

/-- A body. -/
inductive Body : Writing (List Statement)
  /-- In braces, which may open on a line of its own. -/
  | braces {ns ps rest : List Lexeme} {p : Position} {k : Nat} {statements : List Statement}
    (hns : Newlines ns) (hstatements : Statements statement Braced k ps rest statements) :
    Body k (ns ++ ⟨.mark .leftBrace, p⟩ :: ps) rest statements
  /-- In braces after a colon. -/
  | colonBraces {ns ps rest : List Lexeme} {p q : Position} {k : Nat}
    {statements : List Statement} (hns : Newlines ns)
    (hstatements : Statements statement Braced k ps rest statements) :
    Body k (⟨.mark .colon, p⟩ :: (ns ++ ⟨.mark .leftBrace, q⟩ :: ps)) rest statements
  /-- After a colon. -/
  | colon {ps rest : List Lexeme} {p : Position} {k : Nat} {statements : List Statement}
    (hstatements : Statements statement Ended k ps rest statements) :
    Body k (⟨.mark .colon, p⟩ :: ps) rest statements

end

/-- A statement. -/
inductive Written : Writing Statement
  | assign {target : Binding} {value : Expr} {p q : Position} {k : Nat} {ts ps rest : List Lexeme}
    (htarget : Target p ts target) (hvalue : Expression k ps value) (hrest : Follow ps rest) :
    Written k (ts ++ ⟨.mark .equals, q⟩ :: ps) rest (.assign target value p)
  | call {name : String} {arguments : List Expr} {p opened : Position} {k : Nat}
    {ps rest : List Lexeme} (harguments : Series Expression .paren k ps arguments) :
    Written (k + 1) (⟨.identifier name, p⟩ :: ⟨.mark .leftParen, opened⟩ :: ps) rest
      (.call name arguments p)
  | foreach {binding : Binding} {source : Expr} {statements : List Statement} {p : Position}
    {k m : Nat} {hs ps rest : List Lexeme} (hheader : Header k hs binding source)
    (hbody : Body Written m ps rest statements) :
    Written (max k (m + 1)) (⟨.keyword .foreach, p⟩ :: (hs ++ ps)) rest
      (.foreach binding source statements p)

/-- The variations block of a program, with or without an equals sign after its keyword. -/
inductive Block : Writing (List Statement)
  | plain {p : Position} {k : Nat} {ps rest : List Lexeme} {statements : List Statement}
    (hbody : Body Written k ps rest statements) :
    Block k (⟨.keyword .variations, p⟩ :: ps) rest statements
  | equals {p q : Position} {k : Nat} {ps rest : List Lexeme} {statements : List Statement}
    (hbody : Body Written k ps rest statements) :
    Block k (⟨.keyword .variations, p⟩ :: ⟨.mark .equals, q⟩ :: ps) rest statements

/-- The tokens that statements begin with. -/
def BeginsStatement (token : Token) : Prop :=
  token = .keyword .foreach ∨ token = .mark .leftParen ∨ ∃ name, token = .identifier name

/-- A written statement begins with a token that begins statements. -/
theorem written_opens {k : Nat} {p rest : List Lexeme} {s : Statement} (h : Written k p rest s) :
    ∃ t q, p = t :: q ∧ BeginsStatement t.token := by
  cases h with
  | assign htarget =>
    cases htarget with
    | name => exact ⟨_, _, rfl, .inr (.inr ⟨_, rfl⟩)⟩
    | bare => exact ⟨_, _, rfl, .inr (.inr ⟨_, rfl⟩)⟩
    | parens => exact ⟨_, _, rfl, .inr (.inl rfl)⟩
  | call => exact ⟨_, _, rfl, .inr (.inr ⟨_, rfl⟩)⟩
  | foreach => exact ⟨_, _, rfl, .inl rfl⟩

end Grammar

end HandTemplate
