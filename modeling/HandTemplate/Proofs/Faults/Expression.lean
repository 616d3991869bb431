import HandTemplate.Proofs.Faults.Agreement
import HandTemplate.Proofs.Grammar.Chain

/-!
# Faults of expressions

The rules for expressions agree under two limits, and the expressions that they read are placed
where lexemes stand.
-/

namespace HandTemplate

namespace Expr

open Grammar Rule

variable {limit limit' room room' : Nat} {W : List Lexeme}

/-- Every part of an expression is placed where a lexeme stands, and a literal or a name where it is
written. -/
inductive Placed (W : List Lexeme) : Expr → Prop where
  | number {value : Int64} {p : Position} (hp : ⟨.integer value, p⟩ ∈ W) :
      Placed W (.number value p)
  | text {value : String} {p : Position} (hp : ⟨.text value, p⟩ ∈ W) : Placed W (.text value p)
  | tile {code : String} {p : Position} (hp : ⟨.tile code, p⟩ ∈ W) : Placed W (.tile code p)
  | identifier {name : String} {p : Position} (hp : ⟨.identifier name, p⟩ ∈ W) :
      Placed W (.identifier name p)
  | range {first last : Int64} {p : Position} (hp : ⟨.range first last, p⟩ ∈ W) :
      Placed W (.range first last p)
  | tuple {elements : List Expr} {p : Position} (hp : p.Among W)
      (helements : ∀ e ∈ elements, Placed W e) : Placed W (.tuple elements p)
  | call {name : String} {arguments : List Expr} {p : Position} (hp : ⟨.identifier name, p⟩ ∈ W)
      (harguments : ∀ e ∈ arguments, Placed W e) : Placed W (.call name arguments p)
  | index {target place : Expr} {p : Position} (hp : p.Among W) (htarget : Placed W target)
      (hplace : Placed W place) : Placed W (.index target place p)
  | binary {operator : Operator} {left right : Expr} {p : Position} (hp : p.Among W)
      (hleft : Placed W left) (hright : Placed W right) : Placed W (.binary operator left right p)

/-- An expression stands where one of the lexemes does. -/
theorem Placed.position {e : Expr} (h : e.Placed W) : e.position.Among W := by
  cases h with
  | tuple hp | index hp | binary hp => exact hp
  | number hp | text hp | tile hp | range hp | identifier hp | call hp => exact ⟨_, hp⟩

/-- Parentheses agree if what stands in them does. -/
theorem inParens_agrees {rule rule' : Rule Expr} (hrule : Agrees W (Placed W) rule rule')
    {opened : Position} (hopened : ⟨.mark .leftParen, opened⟩ ∈ W) :
    Agrees W (Placed W) (inParens rule opened) (inParens rule' opened) := by
  intro ts hts
  have hdrop := dropNewlines_subset hts
  -- The parenthesis is closed at once, or after one expression, or after a comma and others.
  rcases mark_or_not .rightParen (dropNewlines ts) with ⟨c, after, heq⟩ | hopen
  · rw [inParens_closed _ _ heq, inParens_closed _ _ heq]
    rw [heq] at hdrop
    exact .ok (.tuple ⟨_, hopened⟩ fun e he => (nomatch he)) (mem_and_subset_of_cons hdrop).2
  rw [inParens_run _ _ (ne_mark_cons hopen), inParens_run _ _ (ne_mark_cons hopen)]
  refine (hrule _ hdrop).bind fun first rest _ hfirst hrest => ?_
  have hnext := dropNewlines_subset hrest
  dsimp only
  cases heq : dropNewlines rest with
  | nil => exact .error hopened
  | cons t after =>
  rw [heq] at hnext
  obtain ⟨ht, hafter⟩ := mem_and_subset_of_cons hnext
  dsimp only
  split
  · exact .ok hfirst hafter
  split
  · have hothers := series_agrees hrule (d := .paren) hopened after hafter
    exact hothers.bind fun others rest' _ hothers hrest' =>
      .ok (.tuple ⟨_, hopened⟩ (List.forall_mem_cons.2 ⟨hfirst, hothers⟩)) hrest'
  · exact .error ht

/-- The rules for expressions with less room agree wherever there is such room. -/
def BelowAgrees (W : List Lexeme) (limit room limit' room' : Nat) : Prop :=
  ∀ n n', room = n + 1 → room' = n' + 1 → n ≤ n' →
    Agrees W (Placed W) (parse limit n) (parse limit' n')

section
variable (hroom : room ≤ room') (hbelow : BelowAgrees W limit room limit' room')
include hroom hbelow

/-- Atoms agree if expressions with less room do. -/
theorem atom_agrees :
    Agrees W (Placed W) (atom limit (nested limit room)) (atom limit' (nested limit' room')) := by
  rw [nested_eq, nested_eq]
  intro ts hts
  -- The first token decides which atom it is; all other tokens are faults.
  rcases ts with _ | ⟨⟨token, p⟩, ts⟩
  · exact .error trivial
  obtain ⟨ht, hafter⟩ := mem_and_subset_of_cons hts
  cases token with
  | integer value => exact .ok (.number ht) hafter
  | range first last => exact .ok (.range ht) hafter
  | text value => exact .ok (.text ht) hafter
  | tile code => exact .ok (.tile ht) hafter
  | identifier name =>
    rcases mark_or_not .leftParen ts with ⟨opened, ts, rfl⟩ | hhead
    · obtain ⟨hopened, hafter⟩ := mem_and_subset_of_cons hafter
      rw [atom_call, atom_call]
      refine Agree.deeper hopened hroom fun n n' hn hn' hle => ?_
      have harguments := series_agrees (hbelow n n' hn hn' hle) (d := .paren) hopened ts hafter
      exact harguments.bind fun arguments rest _ harguments hrest => .ok (.call ht harguments) hrest
    · rw [atom_identifier _ _ _ hhead, atom_identifier _ _ _ hhead]
      exact .ok (.identifier ht) hafter
  | mark m =>
    cases m with
    | leftParen =>
      rw [atom_paren, atom_paren]
      exact Agree.deeper ht hroom fun n n' hn hn' hle =>
        inParens_agrees (hbelow n n' hn hn' hle) ht ts hafter
    | leftBracket =>
      rw [atom_bracket, atom_bracket]
      refine Agree.deeper ht hroom fun n n' hn hn' hle => ?_
      have helements := series_agrees (hbelow n n' hn hn' hle) (d := .bracket) ht ts hafter
      exact helements.bind fun elements rest _ helements hrest =>
        .ok (.tuple ⟨_, ht⟩ helements) hrest
    | _ => exact .error ht
  | _ => exact .error ht

/-- Indices agree if expressions with less room do. -/
theorem indices_agree {target : Expr} (htarget : target.Placed W) {ts : List Lexeme}
    (hts : ts ⊆ W) :
    Agree W (Placed W) (pair (indices limit (nested limit room) target ts))
      (pair (indices limit' (nested limit' room') target ts)) := by
  -- By induction on the number of lexemes, which every index makes smaller.
  obtain ⟨n, hlength⟩ : ∃ n, ts.length = n := ⟨_, rfl⟩
  induction n using Nat.strongRecOn generalizing target ts with
  | ind n ih =>
  subst hlength
  rcases mark_or_not .leftBracket ts with ⟨opened, ts, rfl⟩ | hhead
  · obtain ⟨hopened, hafter⟩ := mem_and_subset_of_cons hts
    rw [indices_more, indices_more, nested_eq, nested_eq]
    have hdrop := dropNewlines_subset hafter
    have hplace : Agree W (Placed W)
        (oneDeeper limit (below (parse limit) room) opened >>=
          fun rule => rule.run (dropNewlines ts))
        (oneDeeper limit' (below (parse limit') room') opened >>=
          fun rule => rule.run (dropNewlines ts)) :=
      Agree.deeper hopened hroom fun n n' hn hn' hle => hbelow n n' hn hn' hle _ hdrop
    refine hplace.bind fun place rest hrun hplace hrest => ?_
    have hnext := dropNewlines_subset hrest
    dsimp only
    cases heq : dropNewlines rest with
    | nil => exact .error hopened
    | cons t after =>
    rw [heq] at hnext
    obtain ⟨ht, hafter'⟩ := mem_and_subset_of_cons hnext
    dsimp only
    split
    · -- What comes after the closing bracket is shorter than what came after the opening one.
      obtain ⟨n, -, hrun⟩ := Grammar.deeper_eq_ok.mp hrun
      have hplaceShorter := length_lt_of_run hrun
      have hdropShorter := length_dropNewlines_le ts
      have hmarkShorter := length_lt_of_dropNewlines heq
      rw [← nested_eq, ← nested_eq]
      exact ih _ (by simp only [List.length_cons]; omega) (.index ⟨_, hopened⟩ htarget hplace)
        hafter' rfl
    · exact .error ht
  · rw [indices_done _ _ hhead, indices_done _ _ hhead]
    exact .ok htarget hts

/-- Operands agree if expressions with less room do. -/
theorem operand_agrees :
    Agrees W (Placed W) (operand limit (nested limit room))
      (operand limit' (nested limit' room')) := by
  intro ts hts
  rw [operand_run, operand_run]
  exact (atom_agrees hroom hbelow ts hts).bind fun target rest _ htarget hrest =>
    indices_agree hroom hbelow htarget hrest

end

section
variable {operator : Operator} {mark : Mark}

/-- The operators of a chain agree if the operands do. -/
theorem chainTail_agrees (hroom : room ≤ room') {rule : (m : Nat) → m < room → Rule Expr}
    {rule' : (m : Nat) → m < room' → Rule Expr}
    (hitem : ∀ m m' h h', m ≤ m' → Agrees W (Placed W) (rule m h) (rule' m' h'))
    {left : Expr} (hleft : left.Placed W) {ts : List Lexeme} (hts : ts ⊆ W) :
    Agree W (Placed W) (pair (chainTail limit operator mark room rule left ts))
      (pair (chainTail limit' operator mark room' rule' left ts)) := by
  -- By induction on the room of the first chain, of which each operator takes a level; the second
  -- chain has one more wherever the first one has.
  induction room generalizing room' left ts with
  | zero =>
    rcases mark_or_not mark ts with ⟨p, ts, rfl⟩ | hhead
    · rw [chainTail_zero]
      exact .tooDeep ⟨_, (mem_and_subset_of_cons hts).1⟩ _
    · rw [chainTail_done _ _ hhead, chainTail_done _ _ hhead]
      exact .ok hleft hts
  | succ room ih =>
    cases room' with
    | zero => exact absurd hroom (Nat.not_succ_le_zero room)
    | succ room' =>
    have hle := Nat.le_of_succ_le_succ hroom
    rcases mark_or_not mark ts with ⟨p, ts, rfl⟩ | hhead
    · obtain ⟨ht, hafter⟩ := mem_and_subset_of_cons hts
      rw [chainTail_succ, chainTail_succ]
      refine (hitem _ _ _ _ hle ts hafter).bind fun right rest _ hright hrest => ?_
      exact ih hle (fun m m' h h' hm => hitem m m' _ _ hm) (.binary ⟨_, ht⟩ hleft hright) hrest
    · rw [chainTail_done _ _ hhead, chainTail_done _ _ hhead]
      exact .ok hleft hts

/-- Chains agree if their parts do, with any room up to that of the chains. -/
theorem chain_agrees (hroom : room ≤ room') {rule : (m : Nat) → m ≤ room → Rule Expr}
    {rule' : (m : Nat) → m ≤ room' → Rule Expr}
    (hitem : ∀ m m' h h', m ≤ m' → Agrees W (Placed W) (rule m h) (rule' m' h')) :
    Agrees W (Placed W) (chain limit operator mark room rule)
      (chain limit' operator mark room' rule') := by
  intro ts hts
  rw [chain_run, chain_run]
  exact (hitem _ _ _ _ hroom ts hts).bind fun left rest _ hleft hrest =>
    chainTail_agrees hroom (fun m m' h h' hm => hitem m m' _ _ hm) hleft hrest

end

/-- Products agree if expressions with less room do. -/
theorem product_agrees (hroom : room ≤ room')
    (hbelow : ∀ n < room, ∀ n', n ≤ n' → Agrees W (Placed W) (parse limit n) (parse limit' n')) :
    Agrees W (Placed W) (product limit room) (product limit' room') := by
  unfold product
  refine chain_agrees hroom fun m m' hm hm' hle => ?_
  rw [factor_eq, factor_eq]
  exact operand_agrees hle fun n n' hn hn' hle' => hbelow n (by omega) n' hle'

/-- Expressions agree, if the second run has no less room than the first. -/
theorem parse_agrees (limit limit' : Nat) (hroom : room ≤ room') :
    Agrees W (Placed W) (parse limit room) (parse limit' room') := by
  induction room using Nat.strongRecOn generalizing room' with
  | ind room ih =>
    -- Delimiters inside take a level of the room, so what stands in them has less.
    unfold parse
    exact chain_agrees hroom fun m m' hm hm' hle =>
      product_agrees hle fun n hn n' hle' => ih n (by omega) hle'

end Expr

end HandTemplate
