import HandTemplate.Proofs.Finality.Prolonged
import HandTemplate.Proofs.Grammar.Chain

/-!
# Expressions and what follows them

An expression that is read in front of some lexemes is read in front of more, and a fault in it at
a token other than a line end stays. Only at the end of the lexemes may more of them matter: an
operator, an index or the parenthesis of a call may follow there.
-/

namespace HandTemplate

namespace Expr

open Grammar Rule

variable {limit room : Nat} {W more : List Lexeme}

/-- Parentheses are decided if the expressions in them are. -/
theorem inParens_continues {rule : Rule Expr} (hrule : Continuing W more rule) (opened : Position) :
    Continuing W more (inParens rule opened) := by
  intro ts hts
  refine .dropNewlines hts (fun heq => ?_) fun t after heq heq' hafter => ?_
  · rw [inParens_run _ _ (heq ▸ nofun), heq]
    exact ((hrule [] List.nil_suffix).undecided nofun).bind fun first rest hrun _ _ =>
      absurd (length_lt_of_run hrun) (Nat.not_lt_zero _)
  -- The parenthesis is closed at once, or after one expression, or after a comma and others.
  by_cases ht : t.token = .mark .rightParen
  · rw [lexeme_eq ht] at heq heq'
    rw [inParens_closed _ _ heq, inParens_closed _ _ heq']
    exact .ok (suffix_of_cons hafter)
  have hopen : ∀ (c : Position) (us vs : List Lexeme), t :: us ≠ ⟨.mark .rightParen, c⟩ :: vs := by
    rintro c us vs ⟨⟩
    exact ht rfl
  rw [inParens_run _ _ (heq ▸ fun c => hopen c _), inParens_run _ _ (heq' ▸ fun c => hopen c _),
    heq, heq']
  refine (hrule _ hafter).prolonged.bind fun first rest _ hrest => ?_
  refine .dropNewlines hrest (fun hnext => ?_) fun u after' hnext hnext' hafter' => ?_
  · dsimp only
    rw [hnext]
    exact .error (.unclosed .paren opened)
  dsimp only
  rw [hnext, hnext']
  dsimp only
  have hsuffix := suffix_of_cons hafter'
  split
  · exact .ok hsuffix
  split
  · exact (series_continues hrule .paren opened _ hsuffix).prolonged.bind
      fun others rest' _ hrest' => Continues.ok (Expr.tuple (first :: others) opened) hrest'
  · exact .error _

section
variable (hbelow : ∀ n < room, Continuing W more (parse limit n))
include hbelow

/-- Atoms are decided if expressions with less room are. -/
theorem atom_continues : Continuing W more (atom limit (nested limit room)) := by
  rw [nested_eq]
  intro ts hts
  -- The first lexeme decides which atom it is; only a name is followed by a second look.
  rcases ts with _ | ⟨⟨token, p⟩, ts⟩
  · exact .of_nil (.error (.endOfText _))
  have hafter := suffix_of_cons hts
  cases token with
  | newline => exact ⟨.error _, fun hnewlines => .error (atEnd_of_newlines hts hnewlines rfl)⟩
  | integer value => exact .of_head nofun (.ok hafter)
  | range first last => exact .of_head nofun (.ok hafter)
  | text value => exact .of_head nofun (.ok hafter)
  | tile code => exact .of_head nofun (.ok hafter)
  | identifier name =>
    refine .of_head nofun ?_
    rcases ts with _ | ⟨t, ts⟩
    · -- Whether the name is called depends on what follows.
      rw [atom_identifier _ _ _ (by simp)]
      exact .undecided (.ok newlines_nil hafter) _
    by_cases ht : t.token = .mark .leftParen
    · obtain ⟨_, opened⟩ := t
      cases ht
      rw [List.cons_append, atom_call, atom_call]
      exact .deeper fun n hn => (series_continues (hbelow n hn) _ _ _
        (suffix_of_cons hafter)).prolonged.bind fun arguments rest _ hrest =>
          Continues.ok (Expr.call name arguments p) hrest
    · have hhead : ∀ us, ∀ u ∈ (t :: us).head?, u.token ≠ .mark .leftParen := by
        rintro us u ⟨⟩
        exact ht
      rw [List.cons_append, atom_identifier _ _ _ (hhead _), atom_identifier _ _ _ (hhead _)]
      exact .ok hafter
  | mark m =>
    refine .of_head nofun ?_
    cases m with
    | leftParen =>
      rw [atom_paren, atom_paren]
      exact .deeper fun n hn => (inParens_continues (hbelow n hn) p ts hafter).prolonged
    | leftBracket =>
      rw [atom_bracket, atom_bracket]
      exact .deeper fun n hn => (series_continues (hbelow n hn) _ _ _ hafter).prolonged.bind
        fun elements rest _ hrest => Continues.ok (Expr.tuple elements p) hrest
    | _ => exact .error _
  | _ => exact .of_head nofun (.error _)

/-- The place of an index is decided, which is read after line ends. -/
theorem place_continues {n : Nat} (hn : n < room) {ts : List Lexeme} (hts : ts <:+ W) :
    Continues W more (fun us => (parse limit n).run (dropNewlines us)) ts := by
  refine .dropNewlines hts (fun heq => ?_) fun t after heq heq' hafter => ?_
  · rw [heq]
    exact (hbelow n hn [] List.nil_suffix).undecided newlines_nil
  · rw [heq, heq']
    exact (hbelow n hn _ hafter).prolonged

/-- Indices are decided if expressions with less room are. -/
theorem indices_continue (target : Expr) {ts : List Lexeme} (hts : ts <:+ W) :
    Continues W more (fun us => pair (indices limit (nested limit room) target us)) ts := by
  -- By induction on the number of lexemes, which every index makes smaller.
  induction hlength : ts.length using Nat.strongRecOn generalizing target ts with
  | ind n ih =>
  subst hlength
  refine .optional hts (fun us => indices_done _ _) ?_
  rintro opened after rfl
  have hafter := suffix_of_cons hts
  rw [List.cons_append, indices_more, indices_more, nested_eq]
  refine (Prolonged.deeper fun n hn => (place_continues hbelow hn hafter).prolonged).bind
    fun place rest hrun hrest => ?_
  refine .dropNewlines hrest (fun heq => ?_) fun t after' heq heq' hafter' => ?_
  · dsimp only
    rw [heq]
    exact .error (.unclosed .bracket opened)
  dsimp only
  rw [heq, heq']
  dsimp only
  split
  · -- What comes after the bracket that closes is shorter than what came after the one that opens.
    obtain ⟨n, -, hrun⟩ := Grammar.deeper_eq_ok.mp hrun
    have hplaceShorter := length_lt_of_run hrun
    have hdropShorter := length_dropNewlines_le after
    have hmarkShorter := length_lt_of_dropNewlines heq
    rw [← nested_eq]
    exact (ih _ (by simp only [List.length_cons]; omega) _ (suffix_of_cons hafter') rfl).prolonged
  · exact .error _

/-- Operands are decided if expressions with less room are. -/
theorem operand_continues : Continuing W more (operand limit (nested limit room)) := by
  intro ts hts
  rw [funext (operand_run (nested limit room))]
  exact (atom_continues hbelow ts hts).bind fun target rest _ hrest =>
    indices_continue hbelow target hrest

end

section
variable {operator : Operator} {mark : Mark}

/-- The operators of a chain are decided if the operands are. -/
theorem chainTail_continues {rule : (m : Nat) → m < room → Rule Expr}
    (hitem : ∀ m h, Continuing W more (rule m h)) (left : Expr) {ts : List Lexeme}
    (hts : ts <:+ W) :
    Continues W more (fun us => pair (chainTail limit operator mark room rule left us)) ts := by
  -- By induction on the room, of which each operator takes a level; whether there is an operator is
  -- decided by the next lexeme.
  induction room generalizing left ts with
  | zero =>
    refine .optional hts (fun us => chainTail_done _ _) ?_
    rintro p after rfl
    rw [List.cons_append, chainTail_zero, chainTail_zero]
    exact .error _
  | succ room ih =>
    refine .optional hts (fun us => chainTail_done _ _) ?_
    rintro p after rfl
    rw [List.cons_append, chainTail_succ, chainTail_succ]
    exact (hitem _ _ after (suffix_of_cons hts)).prolonged.bind fun right rest _ hrest =>
      ih (fun m h => hitem m _) (.binary operator left right p) hrest

/-- Chains are decided if their parts are, with any room up to that of the chains. -/
theorem chain_continues {rule : (m : Nat) → m ≤ room → Rule Expr}
    (hitem : ∀ m h, Continuing W more (rule m h)) :
    Continuing W more (chain limit operator mark room rule) := by
  intro ts hts
  rw [funext (chain_run rule)]
  exact (hitem room (Nat.le_refl _) ts hts).bind fun left rest _ hrest =>
    chainTail_continues (fun m h => hitem m (Nat.le_of_lt h)) left hrest

end

/-- Expressions are decided, unless they run up to line ends at the end of the lexemes. -/
theorem parse_continues (limit room : Nat) : Continuing W more (parse limit room) := by
  induction room using Nat.strongRecOn with
  | ind room ih =>
    -- Delimiters inside take a level of the room, so what stands in them has less.
    unfold parse
    refine chain_continues fun m hm => ?_
    unfold product
    refine chain_continues fun m' hm' => ?_
    rw [factor_eq]
    exact operand_continues fun n hn => ih n (by omega)

end Expr

end HandTemplate
