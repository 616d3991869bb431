import HandTemplate.Proofs.Grammar.Operand

/-!
# Reading chains of operators

A chain reads its first part with all the room it has, and with every operator the parts after it
with one level less.
-/

namespace HandTemplate

namespace Expr

open Grammar Outcome Rule

variable {limit room : Nat} {operator : Operator} {mark : Mark} {marks : List Mark}
  {item : Spelling Expr}

/-- Without an operator a chain ends. -/
theorem chainTail_done (rule : (m : Nat) → m < room → Rule Expr) (left : Expr) {ts : List Lexeme}
    (h : ∀ t ∈ ts.head?, t.token ≠ .mark mark) :
    pair (chainTail limit operator mark room rule left ts) = .ok (left, ts) := by
  unfold chainTail
  split
  · rfl
  · rw [if_neg (h _ rfl)]
    rfl

/-- An operator needs room for one level. -/
theorem chainTail_zero (rule : (m : Nat) → m < 0 → Rule Expr) (left : Expr) (p : Position)
    (ts : List Lexeme) :
    pair (chainTail limit operator mark 0 rule left (⟨.mark mark, p⟩ :: ts)) =
      .error (.tooDeep limit p) := by
  unfold chainTail
  dsimp only
  rw [if_pos rfl]
  rfl

/-- An operator and those after it, in terms of what the operand gives as a pair. -/
theorem chainTail_succ (rule : (m : Nat) → m < room + 1 → Rule Expr) (left : Expr) (p : Position)
    (ts : List Lexeme) :
    pair (chainTail limit operator mark (room + 1) rule left (⟨.mark mark, p⟩ :: ts)) =
      run (rule room (Nat.lt_succ_self _)) ts >>= fun right =>
        pair (chainTail limit operator mark room (fun m h => rule m (Nat.lt_succ_of_lt h))
          (.binary operator left right.1 p) right.2) := by
  conv => lhs; unfold chainTail
  dsimp only
  rw [if_pos rfl]
  exact pair_bind _ fun right => pair_widen _ _

/-- A chain in terms of what its parts give as pairs. -/
theorem chain_run (rule : (m : Nat) → m ≤ room → Rule Expr) (ts : List Lexeme) :
    run (chain limit operator mark room rule) ts =
      run (rule room (Nat.le_refl _)) ts >>= fun first =>
        pair (chainTail limit operator mark room (fun m h => rule m (Nat.le_of_lt h)) first.1
          first.2) :=
  pair_bind _ fun _ => pair_widen _ _

/-- What comes after the first part of a chain does not continue that part. -/
theorem tail_free (hmark : mark ∉ marks) (hparen : mark ≠ .leftParen) {left e : Expr} {k : Nat}
    {q ps rest : List Lexeme} (h : Tail operator mark item left k ps e)
    (hfree : Free (mark :: marks) (q ++ ps) rest) : Free marks q (ps ++ rest) := by
  cases h with
  | done =>
    rw [List.append_nil] at hfree
    exact hfree.mono (List.subset_cons_self _ _)
  | more =>
    refine free_cons (fun m hm heq => ?_) fun heq => ?_
    · cases heq
      exact hmark hm
    · cases heq
      exact hparen rfl

/-- The operators of a chain are read if the operands are. -/
theorem tail_reads (hmark : mark ∉ marks) (hparen : mark ≠ .leftParen) (hopens : Opens item)
    {left e : Expr} {k : Nat} {q ps rest : List Lexeme}
    (h : Tail operator mark item left k ps e) (hfree : Free (mark :: marks) (q ++ ps) rest)
    {rule : (m : Nat) → m < room → Rule Expr}
    (hitem : ∀ m h, Reads limit m item (Free marks) (rule m h)) :
    Within limit k room (pair (chainTail limit operator mark room rule left (ps ++ rest)))
      (e, rest) := by
  -- By induction on the operators, while the room shrinks and `q` grows by the operand before.
  induction h generalizing room q with
  | done =>
    rw [List.nil_append, chainTail_done _ _ fun t ht => (hfree t ht).1 _ (List.mem_cons_self ..)]
    exact Within.ok _
  | @more left right e p k m ts ps hright htail ih =>
    have hne : ts ≠ [] := by
      obtain ⟨t, ts', rfl, -⟩ := hopens hright
      exact List.cons_ne_nil _ _
    have hshape : q ++ ⟨.mark mark, p⟩ :: (ts ++ ps) = (q ++ ⟨.mark mark, p⟩ :: ts) ++ ps := by
      simp
    rw [hshape] at hfree
    rw [List.cons_append, List.append_assoc]
    cases room with
    | zero => exact ⟨fun h => absurd h (by omega), fun _ => ⟨p, chainTail_zero _ _ _ _⟩⟩
    | succ room =>
      have hfirst : Free marks ts (ps ++ rest) := by
        have hsofar := tail_free hmark hparen htail hfree
        rwa [← List.singleton_append, ← List.append_assoc, free_append hne] at hsofar
      -- The operand and the rest of the chain share what room is left below the operator.
      rw [chainTail_succ]
      refine Within.succ ((hitem room (Nat.lt_succ_self _) hright hfirst).bind ?_)
      exact ih hfree fun m h => hitem m (Nat.lt_succ_of_lt h)

/-- Chains are read if their parts are, with any room up to that of the chain. -/
theorem chain_reads (hmark : mark ∉ marks) (hparen : mark ≠ .leftParen) (hopens : Opens item)
    {rule : (m : Nat) → m ≤ room → Rule Expr}
    (hitem : ∀ m h, Reads limit m item (Free marks) (rule m h)) :
    Reads limit room (Chain operator mark item) (Free (mark :: marks))
      (chain limit operator mark room rule) := by
  -- The first part is read with all the room, whatever operators come after it.
  rintro k p e rest ⟨hfirst, htail⟩ hfree
  rw [chain_run, List.append_assoc]
  exact (hitem _ _ hfirst (tail_free hmark hparen htail hfree)).bind
    (tail_reads hmark hparen hopens htail hfree fun m h => hitem m (Nat.le_of_lt h))

/-- The operators of a chain are all that is read after its first part. -/
theorem tail_sound (hopens : Opens item) {left e : Expr} {q ts rest : List Lexeme}
    {rule : (m : Nat) → m < room → Rule Expr}
    (hitem : ∀ m h, Sound m item (Free marks) (rule m h)) (hfree : Free marks q ts)
    (h : pair (chainTail limit operator mark room rule left ts) = .ok (e, rest)) :
    ∃ k ps, k ≤ room ∧ ts = ps ++ rest ∧ Tail operator mark item left k ps e ∧
      Free (mark :: marks) (q ++ ps) rest := by
  -- By induction on the room, since an operator takes one level of it.
  induction room generalizing left q ts with
  | zero =>
    rcases mark_or_not mark ts with ⟨p, ts, rfl⟩ | hhead
    · rw [chainTail_zero] at h
      cases h
    · rw [chainTail_done _ _ hhead] at h
      cases h
      exact ⟨0, [], Nat.zero_le _, rfl, .done, by rw [List.append_nil]; exact hfree.cons hhead⟩
  | succ room ih =>
    rcases mark_or_not mark ts with ⟨p, ts, rfl⟩ | hhead
    · rw [chainTail_succ] at h
      obtain ⟨⟨right, after⟩, hright, hafter⟩ := bind_eq_ok.mp h
      obtain ⟨k, ps, hk, rfl, hspelled, hps⟩ := hitem room (Nat.lt_succ_self _) hright
      -- What may come after the operators read so far is what may come after their last operand.
      have hne : ps ≠ [] := by
        obtain ⟨t, ps', rfl, -⟩ := hopens hspelled
        exact List.cons_ne_nil _ _
      have hq : Free marks (q ++ [⟨.mark mark, p⟩] ++ ps) after := (free_append hne _ _ _).mpr hps
      obtain ⟨m, qs, hm, rfl, htail, hfree⟩ :=
        ih (fun m h => hitem m (Nat.lt_succ_of_lt h)) hq hafter
      exact ⟨max k m + 1, _, by omega, by simp, .more hspelled htail, by simpa using hfree⟩
    · rw [chainTail_done _ _ hhead] at h
      cases h
      exact ⟨0, [], Nat.zero_le _, rfl, .done, by rw [List.append_nil]; exact hfree.cons hhead⟩

/-- The rule for chains reads nothing but chains if the rules for the parts read nothing else. -/
theorem chain_sound (hopens : Opens item) {rule : (m : Nat) → m ≤ room → Rule Expr}
    (hitem : ∀ m h, Sound m item (Free marks) (rule m h)) :
    Sound room (Chain operator mark item) (Free (mark :: marks))
      (chain limit operator mark room rule) := by
  intro ts e rest h
  rw [chain_run] at h
  obtain ⟨⟨left, after⟩, hleft, hafter⟩ := bind_eq_ok.mp h
  obtain ⟨k, p, hk, rfl, hspelled, hfirst⟩ := hitem _ _ hleft
  obtain ⟨m, ps, hm, rfl, htail, hfree⟩ :=
    tail_sound hopens (fun m h => hitem m (Nat.le_of_lt h)) hfirst hafter
  exact ⟨max k m, p ++ ps, by omega, by simp, ⟨hspelled, htail⟩, hfree⟩

end Expr

end HandTemplate
