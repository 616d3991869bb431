import HandTemplate.Expr
import HandTemplate.Fault.Grammar

/-!
# How expressions are spelled

The grammar of expressions as a relation between lexemes and the expressions that they spell,
without regard to how they are read:

    sum      ::= product ("+" product)*
    product  ::= operand ("*" operand)*
    operand  ::= atom ("[" sum "]")*
    atom     ::= integer | range | text | tile | name | name "(" list ")"
               | "(" ")" | "(" sum ")" | "(" sum "," list ")" | "[" list "]"
    list     ::= (sum ("," sum)* ","?)?

Both operators associate to the left. Lines may end after an opening mark or a comma, and before a
comma or a closing mark. The relation also counts the levels of nesting that a spelling takes: one
for each delimiter around a part, and one for each operator of a chain before a part.
-/

namespace HandTemplate

namespace Grammar

variable {α : Type}

/-- How constructs of type `α` are spelled: by which lexemes, which take how many levels. -/
abbrev Spelling (α : Type) := Nat → List Lexeme → α → Prop

/-- Some lexemes are nothing but line ends. -/
def Newlines (ts : List Lexeme) : Prop := ∀ t ∈ ts, t.token = .newline

/-- No lexemes are line ends. -/
theorem newlines_nil : Newlines [] := nofun

/-- One name. -/
inductive Name : Spelling String
  | intro {name : String} {p : Position} : Name 0 [⟨.identifier name, p⟩] name

/-- Items after an opening mark, with the closing mark. -/
inductive Series (item : Spelling α) (d : Delimiter) : Spelling (List α)
  /-- No items, or no more of them. -/
  | done {ns : List Lexeme} {c : Position} (hns : Newlines ns) :
    Series item d 0 (ns ++ [⟨.mark d.closing, c⟩]) []
  /-- The last item, with no comma after it. -/
  | last {ns p ns' : List Lexeme} {c : Position} {k : Nat} {a : α} (hns : Newlines ns)
    (hitem : item k p a) (hns' : Newlines ns') :
    Series item d k (ns ++ (p ++ (ns' ++ [⟨.mark d.closing, c⟩]))) [a]
  /-- An item with a comma after it. -/
  | more {ns p ns' ps : List Lexeme} {c : Position} {k m : Nat} {a : α} {as : List α}
    (hns : Newlines ns) (hitem : item k p a) (hns' : Newlines ns')
    (hseries : Series item d m ps as) :
    Series item d (max k m) (ns ++ (p ++ (ns' ++ ⟨.mark .comma, c⟩ :: ps))) (a :: as)

section
variable (expression : Spelling Expr)

/-- What begins with a parenthesis. -/
inductive Group : Spelling Expr
  /-- The empty list. -/
  | unit {ns : List Lexeme} {opened c : Position} (hns : Newlines ns) :
    Group 1 (⟨.mark .leftParen, opened⟩ :: (ns ++ [⟨.mark .rightParen, c⟩])) (.tuple [] opened)
  /-- An expression that merely stands in parentheses. -/
  | parens {ns p ns' : List Lexeme} {opened c : Position} {k : Nat} {e : Expr} (hns : Newlines ns)
    (hexpr : expression k p e) (hns' : Newlines ns') :
    Group (k + 1) (⟨.mark .leftParen, opened⟩ :: (ns ++ (p ++ (ns' ++ [⟨.mark .rightParen, c⟩])))) e
  /-- The elements of a list, of which a single one has a comma after it. -/
  | tuple {ns p ns' ps : List Lexeme} {opened c : Position} {k m : Nat} {e : Expr} {es : List Expr}
    (hns : Newlines ns) (hexpr : expression k p e) (hns' : Newlines ns')
    (hseries : Series expression .paren m ps es) :
    Group (max k m + 1)
      (⟨.mark .leftParen, opened⟩ :: (ns ++ (p ++ (ns' ++ ⟨.mark .comma, c⟩ :: ps))))
      (.tuple (e :: es) opened)

/-- An expression without operators and indices. -/
inductive Atom : Spelling Expr
  | number {value : Int64} {p : Position} : Atom 0 [⟨.integer value, p⟩] (.number value p)
  | range {first last : Int64} {p : Position} :
    Atom 0 [⟨.range first last, p⟩] (.range first last p)
  | text {value : String} {p : Position} : Atom 0 [⟨.text value, p⟩] (.text value p)
  | tile {code : String} {p : Position} : Atom 0 [⟨.tile code, p⟩] (.tile code p)
  | identifier {name : String} {p : Position} :
    Atom 0 [⟨.identifier name, p⟩] (.identifier name p)
  | call {name : String} {p opened : Position} {k : Nat} {ts : List Lexeme} {es : List Expr}
    (hseries : Series expression .paren k ts es) :
    Atom (k + 1) (⟨.identifier name, p⟩ :: ⟨.mark .leftParen, opened⟩ :: ts) (.call name es p)
  | paren {k : Nat} {ts : List Lexeme} {e : Expr} (hgroup : Group expression k ts e) : Atom k ts e
  | bracket {opened : Position} {k : Nat} {ts : List Lexeme} {es : List Expr}
    (hseries : Series expression .bracket k ts es) :
    Atom (k + 1) (⟨.mark .leftBracket, opened⟩ :: ts) (.tuple es opened)

/-- The indices after a target. Each of them starts at the level of the target. -/
inductive Indices : Expr → Spelling Expr
  | done {target : Expr} : Indices target 0 [] target
  | more {target place e : Expr} {opened c : Position} {k m : Nat} {ns p ns' ps : List Lexeme}
    (hns : Newlines ns) (hexpr : expression k p place) (hns' : Newlines ns')
    (hindices : Indices (.index target place opened) m ps e) :
    Indices target (max (k + 1) m)
      (⟨.mark .leftBracket, opened⟩ :: (ns ++ (p ++ (ns' ++ ⟨.mark .rightBracket, c⟩ :: ps)))) e

/-- An expression without operators. -/
inductive Operand : Spelling Expr
  | intro {target e : Expr} {k m : Nat} {p ps : List Lexeme} (hatom : Atom expression k p target)
    (hindices : Indices expression target m ps e) : Operand (max k m) (p ++ ps) e

end

section
variable (operator : Operator) (mark : Mark) (item : Spelling Expr)

/-- The operators of a chain after its first part `left`, each with its right operand. Each operator
takes a level that what follows it is read below. -/
inductive Tail : Expr → Spelling Expr
  | done {left : Expr} : Tail left 0 [] left
  | more {left right e : Expr} {p : Position} {k m : Nat} {ts ps : List Lexeme}
    (hitem : item k ts right) (htail : Tail (.binary operator left right p) m ps e) :
    Tail left (max k m + 1) (⟨.mark mark, p⟩ :: (ts ++ ps)) e

/-- Parts joined by one operator. -/
inductive Chain : Spelling Expr
  | intro {left e : Expr} {k m : Nat} {p ps : List Lexeme} (hitem : item k p left)
    (htail : Tail operator mark item left m ps e) : Chain (max k m) (p ++ ps) e

end

/-- An expression. -/
inductive Expression : Spelling Expr
  | intro {k : Nat} {p : List Lexeme} {e : Expr}
    (hsum : Chain .add .plus (Chain .mul .star (Operand Expression)) k p e) : Expression k p e

/-- An expression without sums. -/
abbrev Product : Spelling Expr := Chain .mul .star (Operand Expression)

/-- Some lexemes end in a name. -/
def EndsInName (p : List Lexeme) : Prop :=
  ∃ name, p.getLast?.map Lexeme.token = some (.identifier name)

/-- What comes after some lexemes starts with none of these marks, nor with a parenthesis that makes
a call of a name at their end. -/
def Free (marks : List Mark) (p rest : List Lexeme) : Prop :=
  ∀ t ∈ rest.head?, (∀ m ∈ marks, t.token ≠ .mark m) ∧ (EndsInName p → t.token ≠ .mark .leftParen)

/-- What comes after the lexemes of an expression does not continue it. -/
abbrev Follow : List Lexeme → List Lexeme → Prop := Free [.plus, .star, .leftBracket]

/-- A lexeme with a known token. -/
theorem lexeme_eq {t : Lexeme} {token : Token} (h : t.token = token) : t = ⟨token, t.position⟩ := by
  cases t
  cases h
  rfl

/-- Lexemes start with a mark or they do not. -/
theorem mark_or_not (m : Mark) (ts : List Lexeme) :
    (∃ p after, ts = ⟨.mark m, p⟩ :: after) ∨ ∀ t ∈ ts.head?, t.token ≠ .mark m := by
  cases ts with
  | nil => exact .inr nofun
  | cons t after =>
    by_cases h : t.token = .mark m
    · exact .inl ⟨t.position, after, by rw [← lexeme_eq h]⟩
    · refine .inr fun u hu => ?_
      cases hu
      exact h

/-- Lexemes that do not start with a mark are not that mark and others after it. -/
theorem ne_mark_cons {m : Mark} {ts : List Lexeme} (h : ∀ t ∈ ts.head?, t.token ≠ .mark m)
    (p : Position) (after : List Lexeme) : ts ≠ ⟨.mark m, p⟩ :: after := by
  rintro rfl
  exact h _ rfl rfl

/-! ## What may come after some lexemes -/

/-- What precedes some lexemes says nothing about their end. -/
@[simp] theorem endsInName_append {p : List Lexeme} (hp : p ≠ []) (q : List Lexeme) :
    EndsInName (q ++ p) ↔ EndsInName p := by
  unfold EndsInName
  rw [List.getLast?_append, List.getLast?_eq_some_getLast hp, Option.some_or]

/-- Lexemes with one more in front end in a name if they did. -/
@[simp] theorem endsInName_cons {p : List Lexeme} (hp : p ≠ []) (t : Lexeme) :
    EndsInName (t :: p) ↔ EndsInName p :=
  endsInName_append hp [t]

/-- A mark does not end in a name. -/
@[simp] theorem not_endsInName_mark (m : Mark) (c : Position) : ¬ EndsInName [⟨.mark m, c⟩] := by
  rintro ⟨name, h⟩
  cases h

/-- Items with the closing mark are at least one lexeme. -/
theorem series_ne_nil {item : Spelling α} {d : Delimiter} {k : Nat} {p : List Lexeme}
    {as : List α} (h : Series item d k p as) : p ≠ [] := by
  cases h <;> simp

/-- A series ends in its closing mark. -/
theorem series_not_endsInName {item : Spelling α} {d : Delimiter} {k : Nat} {p : List Lexeme}
    {as : List α} (h : Series item d k p as) : ¬ EndsInName p := by
  induction h with
  | done => simp
  | last => simp
  | more _ _ _ hseries ih => simpa [series_ne_nil hseries] using ih

/-- What begins with a parenthesis ends in one. -/
theorem group_not_endsInName {expression : Spelling Expr} {k : Nat} {p : List Lexeme} {e : Expr}
    (h : Group expression k p e) : ¬ EndsInName p := by
  cases h with
  | unit => simp
  | parens => simp
  | tuple _ _ _ hseries => simpa [series_ne_nil hseries] using series_not_endsInName hseries

/-- What may come after some lexemes depends on the last of them only. -/
theorem free_append {p : List Lexeme} (hp : p ≠ []) (marks : List Mark) (q rest : List Lexeme) :
    Free marks (q ++ p) rest ↔ Free marks p rest := by
  unfold Free
  rw [endsInName_append hp]

/-- Anything may come at the end of the text. -/
theorem free_nil (marks : List Mark) (p : List Lexeme) : Free marks p [] := nofun

/-- Fewer marks allow more to come. -/
theorem Free.mono {marks marks' : List Mark} {p rest : List Lexeme} (h : Free marks' p rest)
    (hmarks : marks ⊆ marks') : Free marks p rest :=
  fun t ht => ⟨fun m hm => (h t ht).1 m (hmarks hm), (h t ht).2⟩

/-- One more mark that does not come. -/
theorem Free.cons {m : Mark} {marks : List Mark} {p rest : List Lexeme} (h : Free marks p rest)
    (hhead : ∀ t ∈ rest.head?, t.token ≠ .mark m) : Free (m :: marks) p rest := by
  refine fun t ht => ⟨fun m' hm' => ?_, (h t ht).2⟩
  rcases List.mem_cons.mp hm' with rfl | hm'
  · exact hhead t ht
  · exact (h t ht).1 m' hm'

/-- After lexemes that end in no name, a parenthesis may come. -/
theorem free_of_not_endsInName {p : List Lexeme} (h : ¬ EndsInName p) (rest : List Lexeme) :
    Free [] p rest :=
  fun _ _ => ⟨nofun, fun hname => absurd hname h⟩

/-- A token may come after any lexemes if it is none of the marks and no parenthesis. -/
theorem free_cons {marks : List Mark} {p rest : List Lexeme} {t : Lexeme}
    (hmarks : ∀ m ∈ marks, t.token ≠ .mark m) (hparen : t.token ≠ .mark .leftParen) :
    Free marks p (t :: rest) := by
  intro u hu
  cases hu
  exact ⟨hmarks, fun _ => hparen⟩

/-- Items begin neither with a line end nor with the end of a delimiter. -/
def Opens (item : Spelling α) : Prop :=
  ∀ {k p a}, item k p a →
    ∃ t q, p = t :: q ∧ t.token ≠ .newline ∧ ∀ d : Delimiter, t.token ≠ .mark d.closing

/-- The tokens that may come after an item inside a delimiter. -/
def EndsItem (token : Token) : Prop :=
  token = .newline ∨ token = .mark .comma ∨ ∃ d : Delimiter, token = .mark d.closing

/-- What may follow items includes whatever ends an item inside a delimiter. -/
def Separable (free : List Lexeme → List Lexeme → Prop) : Prop :=
  ∀ {p t rest}, EndsItem t.token → free p (t :: rest)

/-- An item may be followed by line ends before the token that ends it. -/
theorem Separable.newlines {free : List Lexeme → List Lexeme → Prop} (hfree : Separable free)
    {ns : List Lexeme} (hns : Newlines ns) {t : Lexeme} (ht : EndsItem t.token)
    (p ts : List Lexeme) : free p (ns ++ t :: ts) := by
  cases ns with
  | nil => exact hfree ht
  | cons n ns => exact hfree (.inl (hns n (List.mem_cons_self ..)))

/-- Whatever ends an item inside a delimiter does not continue an expression. -/
theorem follow_separable : Separable Follow := by
  rintro p ⟨token, q⟩ rest ht
  have htoken : (∀ m ∈ [Mark.plus, .star, .leftBracket], token ≠ .mark m) ∧
      token ≠ .mark .leftParen := by
    rcases ht with rfl | rfl | ⟨d, rfl⟩
    · decide
    · decide
    · cases d <;> decide
  exact free_cons htoken.1 htoken.2

/-- An atom begins like an item. -/
theorem atom_opens (expression : Spelling Expr) : Opens (Atom expression) := by
  intro k p e h
  cases h with
  | paren hgroup =>
    cases hgroup <;> exact ⟨_, _, rfl, nofun, fun d => by cases d <;> exact nofun⟩
  | _ => exact ⟨_, _, rfl, nofun, fun d => by cases d <;> exact nofun⟩

/-- An operand begins like an item. -/
theorem operand_opens (expression : Spelling Expr) : Opens (Operand expression) := by
  rintro k p e ⟨hatom, _⟩
  obtain ⟨t, q, rfl, ht⟩ := atom_opens expression hatom
  exact ⟨t, _, rfl, ht⟩

/-- A chain begins as its items do. -/
theorem chain_opens {operator : Operator} {mark : Mark} {item : Spelling Expr}
    (hitem : Opens item) : Opens (Chain operator mark item) := by
  rintro k p e ⟨hfirst, _⟩
  obtain ⟨t, q, rfl, ht⟩ := hitem hfirst
  exact ⟨t, _, rfl, ht⟩

/-- A product begins like an item. -/
theorem product_opens : Opens Product := chain_opens (operand_opens _)

/-- An expression begins like an item. -/
theorem expression_opens : Opens Expression := by
  rintro k p e ⟨hsum⟩
  exact chain_opens product_opens hsum

end Grammar

end HandTemplate
