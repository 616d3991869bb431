import HandTemplate.Proofs.Layout.Spelling

/-!
# Everything can be written

Every expression has a spelling and every list of statements a layout. Operations and indices are
put in parentheses, bodies in braces, names that take the elements of a value in parentheses, and a
semicolon stands before every statement.
-/

namespace HandTemplate

namespace Grammar

/-- No lexemes are separators. -/
theorem separators_nil : Separators [] := nofun

/-! ## Expressions -/

/-- An atom is an operand. -/
theorem Atom.operand {k : Nat} {p : List Lexeme} {e : Expr} (h : Atom Expression k p e) :
    Operand Expression k p e := by
  have hoperand : Operand Expression (max k 0) (p ++ []) e := .intro h .done
  simpa using hoperand

/-- An operand is a product. -/
theorem Operand.product {k : Nat} {p : List Lexeme} {e : Expr} (h : Operand Expression k p e) :
    Product k p e := by
  have hproduct : Product (max k 0) (p ++ []) e := .intro h .done
  simpa using hproduct

/-- A product is an expression. -/
theorem product_expression {k : Nat} {p : List Lexeme} {e : Expr} (h : Product k p e) :
    Expression k p e := by
  have hexpression : Expression (max k 0) (p ++ []) e := .intro (.intro h .done)
  simpa using hexpression

/-- An atom is an expression. -/
theorem Atom.expression {k : Nat} {p : List Lexeme} {e : Expr} (h : Atom Expression k p e) :
    Expression k p e :=
  product_expression h.operand.product

/-- An expression in parentheses is an atom. -/
theorem Expression.atom {k : Nat} {p : List Lexeme} {e : Expr} (h : Expression k p e) :
    ∃ m q, Atom Expression m q e :=
  ⟨_, ⟨.mark .leftParen, .start⟩ :: ([] ++ (p ++ ([] ++ [⟨.mark .rightParen, .start⟩]))),
    .paren (.parens newlines_nil h newlines_nil)⟩

mutual

/-- Every expression has a spelling, and one that may stand anywhere in an expression. -/
theorem exists_atom : (e : Expr) → ∃ k p, Atom Expression k p e
  | .number _ _ => ⟨_, _, .number⟩
  | .text _ _ => ⟨_, _, .text⟩
  | .tile _ _ => ⟨_, _, .tile⟩
  | .identifier _ _ => ⟨_, _, .identifier⟩
  | .range _ _ _ => ⟨_, _, .range⟩
  | .tuple elements _ => by
    obtain ⟨k, ps, h⟩ := exists_series elements .bracket
    exact ⟨_, _, .bracket h⟩
  | .call name arguments p => by
    obtain ⟨k, ps, h⟩ := exists_series arguments .paren
    exact ⟨_, ⟨.identifier name, p⟩ :: ⟨.mark .leftParen, p⟩ :: ps, .call h⟩
  | .index target place p => by
    obtain ⟨k, ts, htarget⟩ := exists_atom target
    obtain ⟨m, ps, hplace⟩ := exists_atom place
    have hindices : Indices Expression target (max (m + 1) 0)
        (⟨.mark .leftBracket, p⟩ :: ([] ++ (ps ++ ([] ++ [⟨.mark .rightBracket, p⟩]))))
        (.index target place p) :=
      .more newlines_nil hplace.expression newlines_nil .done
    exact (product_expression (Operand.product (.intro htarget hindices))).atom
  | .binary operator left right p => by
    obtain ⟨k, ls, hleft⟩ := exists_atom left
    obtain ⟨m, rs, hright⟩ := exists_atom right
    -- A sum is a chain of products, a product a chain of operands; atoms are both.
    cases operator with
    | add =>
      exact (Expression.intro (.intro hleft.operand.product
        (.more (p := p) hright.operand.product .done))).atom
    | mul =>
      exact (product_expression (.intro hleft.operand (.more (p := p) hright.operand .done))).atom

/-- Every list of expressions has a spelling in any delimiter. -/
theorem exists_series : (es : List Expr) → (d : Delimiter) → ∃ k ps, Series Expression d k ps es
  | [], d => ⟨0, [] ++ [⟨.mark d.closing, .start⟩], .done newlines_nil⟩
  | e :: es, d => by
    obtain ⟨k, p, he⟩ := exists_atom e
    obtain ⟨m, ps, hes⟩ := exists_series es d
    exact ⟨max k m, [] ++ (p ++ ([] ++ ⟨.mark .comma, .start⟩ :: ps)),
      .more newlines_nil he.expression newlines_nil hes⟩

end

/-! ## Statements -/

/-- Every list of names has a spelling in parentheses. -/
theorem exists_names (names : List String) : ∃ k ps, Series Name .paren k ps names := by
  induction names with
  | nil => exact ⟨0, [] ++ [⟨.mark .rightParen, .start⟩], .done newlines_nil⟩
  | cons name names ih =>
    obtain ⟨m, ps, h⟩ := ih
    exact ⟨max 0 m, [] ++ ([⟨.identifier name, .start⟩] ++ ([] ++ ⟨.mark .comma, .start⟩ :: ps)),
      .more newlines_nil .intro newlines_nil h⟩

/-- Every target can be written, at any position. -/
theorem exists_target (target : Binding) (p : Position) : ∃ ts, Target p ts target := by
  cases target with
  | name name => exact ⟨_, .name⟩
  | tuple names =>
    obtain ⟨k, ps, h⟩ := exists_names names
    exact ⟨_, .parens h⟩

/-- Every binding and every source make a header. -/
theorem exists_header (binding : Binding) (source : Expr) :
    ∃ k hs, Header k hs binding source := by
  obtain ⟨k, ps, hsource⟩ := exists_atom source
  cases binding with
  | name name =>
    have hbound : Bound [⟨.identifier name, .start⟩] (.name name) none := .name
    exact ⟨k, _, .plain (i := .start) hbound hsource.expression⟩
  | tuple names =>
    obtain ⟨m, ns, hnames⟩ := exists_names names
    have hbound : Bound (⟨.mark .leftParen, .start⟩ :: ⟨.mark .leftParen, .start⟩ :: ns)
        (.tuple names) (some .start) :=
      .twice hnames
    exact ⟨k, _, .wrapped (i := .start) (c := .start) hbound hsource.expression⟩

/-- The lexeme that stands before every statement. -/
def semicolon : Lexeme := ⟨.mark .semicolon, .start⟩

/-- A semicolon is a separator. -/
theorem separators_semicolon : Separators [semicolon] := by
  rintro t ht
  rw [List.mem_singleton.mp ht]
  exact .inr rfl

mutual

/-- Every statement can be written in front of a semicolon. -/
theorem exists_written : (s : Statement) → ∃ k p, ∀ rest, Written k p (semicolon :: rest) s
  | .assign target value p => by
    obtain ⟨ts, htarget⟩ := exists_target target p
    obtain ⟨k, ps, hvalue⟩ := exists_atom value
    refine ⟨k, ts ++ ⟨.mark .equals, p⟩ :: ps, fun rest => ?_⟩
    exact .assign htarget hvalue.expression
      (free_cons (by rintro m hm ⟨⟩; simp at hm) nofun)
  | .call name arguments p => by
    obtain ⟨k, ps, h⟩ := exists_series arguments .paren
    exact ⟨k + 1, ⟨.identifier name, p⟩ :: ⟨.mark .leftParen, p⟩ :: ps, fun rest => .call h⟩
  | .foreach binding source body p => by
    obtain ⟨k, hs, hheader⟩ := exists_header binding source
    obtain ⟨m, ps, hbody⟩ := exists_statements body
    refine ⟨max k (m + 1), ⟨.keyword .foreach, p⟩ ::
      (hs ++ ([] ++ ⟨.mark .leftBrace, p⟩ :: semicolon :: ps)), fun rest => ?_⟩
    exact .foreach hheader (.braces newlines_nil (hbody _))

/-- All statements can be written in braces, from a semicolon on. -/
theorem exists_statements : (statements : List Statement) →
    ∃ k ps, ∀ rest, Statements Written Braced k (semicolon :: ps) rest statements
  | [] => ⟨0, [⟨.mark .rightBrace, .start⟩], fun rest => .done separators_semicolon .brace⟩
  | s :: statements => by
    obtain ⟨k, p, hfirst⟩ := exists_written s
    obtain ⟨m, ps, hothers⟩ := exists_statements statements
    exact ⟨max k m, p ++ semicolon :: ps, fun rest =>
      .more separators_semicolon (hfirst _) (hothers rest)⟩

end

/-- Every list of statements makes a variations block. -/
theorem exists_block (statements : List Statement) : ∃ k p, ∀ rest, Block k p rest statements := by
  obtain ⟨k, ps, h⟩ := exists_statements statements
  exact ⟨k, ⟨.keyword .variations, .start⟩ ::
    ([] ++ ⟨.mark .leftBrace, .start⟩ :: semicolon :: ps), fun rest =>
      .plain (.braces newlines_nil (h rest))⟩

end Grammar

end HandTemplate
