import HandTemplate.Proofs.Layout.Variations

/-!
# What the limit on nesting bounds

The limit bounds the levels that a program takes as it is written. These are no fewer than the
levels of its tree, where left operands and targets of indices add none; the depth of the tree can
exceed them, and with them the limit, by any amount.
-/

namespace HandTemplate

namespace Program

open Grammar Outcome Rule

variable {limit k : Nat} {ts : List Lexeme} {program : Program}

/-- Lexemes spell a program whose variations block takes `k` levels: after the metadata, which take
none, they are that block between separators. -/
inductive Spelled (k : Nat) (ts : List Lexeme) (program : Program) : Prop
  | intro {ss p ss' : List Lexeme}
    (hmetadata : run Metadata.parse (dropSeparators ts) = .ok (program.metadata, ss ++ (p ++ ss')))
    (hss : Separators ss) (hblock : Block k p ss' program.body) (hss' : Separators ss')

/-- The rule for programs in terms of what its parts give as pairs. -/
theorem parse_eq (limit : Nat) (ts : List Lexeme) :
    parse limit ts =
      run Metadata.parse (dropSeparators ts) >>= fun metadata =>
        run (variations limit) (dropSeparators metadata.2) >>= fun body =>
          match dropSeparators body.2 with
          | [] => .ok ⟨metadata.1, body.1⟩
          | t :: _ => .error (.trailing t.token t.position) := by
  refine bind_pair _ fun metadata => bind_pair _ fun body => ?_
  dsimp only
  cases dropSeparators body.rest <;> rfl

/-- Separators are all dropped. -/
theorem dropSeparators_eq_nil {ss : List Lexeme} (h : Separators ss) : dropSeparators ss = [] := by
  have hdrop : dropSeparators (ss ++ []) = [] := dropSeparators_append h nofun
  rwa [List.append_nil] at hdrop

/-- A program is read if the limit allows its levels, and is otherwise too deep. -/
theorem parse_reads (h : Spelled k ts program) (limit : Nat) :
    Within limit k limit (parse limit ts) program := by
  obtain @⟨ss, p, ss', hmetadata, hss, hblock, hss'⟩ := h
  have hdrop : dropSeparators (ss ++ (p ++ ss')) = p ++ ss' := by
    refine dropSeparators_append hss ?_
    cases hblock <;> rintro t ⟨⟩ <;> rfl
  have hdrop' : dropSeparators ss' = [] := dropSeparators_eq_nil hss'
  rw [parse_eq, hmetadata]
  change Within limit k limit (run (variations limit) (dropSeparators (ss ++ (p ++ ss'))) >>= _) _
  rw [hdrop]
  refine (variations_reads limit hblock).map ?_
  dsimp only
  rw [hdrop']

/-- Only programs are read, and only such as the limit allows. -/
theorem parse_sound (h : parse limit ts = .ok program) : ∃ k ≤ limit, Spelled k ts program := by
  rw [parse_eq] at h
  obtain ⟨⟨metadata, left⟩, hmetadata, h⟩ := bind_eq_ok.mp h
  obtain ⟨⟨body, after⟩, hbody, h⟩ := bind_eq_ok.mp h
  obtain ⟨ss, hss, hleft⟩ := exists_separators left
  obtain ⟨ss', hss', hafter⟩ := exists_separators after
  obtain ⟨k, p, hk, hp, hblock⟩ := variations_sound limit hbody
  dsimp only at h hp
  split at h
  next heq =>
    cases h
    rw [heq, List.append_nil] at hafter
    subst hafter
    rw [hp] at hleft
    exact ⟨k, hk, .intro (hleft ▸ hmetadata) hss hblock hss'⟩
  · cases h

/-- An accepted program takes some levels, as many as the limit at most and as its tree needs at
least. Any limit that allows these levels accepts it, any smaller one rejects it as too deep. So the
limits bound the depth of its tree exactly if that depth does not exceed the levels. -/
theorem parse_levels (h : parse limit ts = .ok program) :
    ∃ k ≤ limit, Spelled k ts program ∧ program.levels ≤ k ∧
      (∀ l, (k ≤ l → parse l ts = .ok program) ∧
        (l < k → ∃ p, parse l ts = .error (.tooDeep l p))) ∧
      ((∀ l q, parse l ts = .ok q → q.depth ≤ l) ↔ program.depth ≤ k) := by
  obtain ⟨k, hk, hspelled⟩ := parse_sound h
  have hreads := parse_reads hspelled
  have hlevels : program.levels ≤ k := by
    obtain ⟨-, -, hblock, -⟩ := hspelled
    exact (block_levels hblock).1
  refine ⟨k, hk, hspelled, hlevels, hreads, ?_⟩
  constructor
  · -- The limit `k` itself accepts the program.
    intro hbound
    exact hbound k program ((hreads k).1 (Nat.le_refl k))
  · -- Every limit that accepts it is at least `k`.
    intro hdepth l q hq
    rcases Nat.lt_or_ge l k with hl | hl
    · obtain ⟨p, hp⟩ := (hreads l).2 hl
      rw [hp] at hq
      cases hq
    · rw [(hreads l).1 hl] at hq
      cases hq
      exact Nat.le_trans hdepth hl

/-! ## Trees deeper than the limit -/

/-- The metadata block without entries. -/
theorem metadata_empty (p q r : Position) (ts : List Lexeme) :
    run Metadata.parse
        (⟨.keyword .metadata, p⟩ :: ⟨.mark .leftBrace, q⟩ :: ⟨.mark .rightBrace, r⟩ :: ts) =
      .ok (Record.ofList [], ts) := by
  have hentries : Metadata.blockEntries q (⟨.mark .rightBrace, r⟩ :: ts) =
      .ok ⟨[], ts, Nat.lt_succ_self _⟩ := by
    unfold Metadata.blockEntries
    rfl
  rw [run_eq_pair]
  unfold Metadata.parse
  dsimp only
  -- The brace is what comes next, and the entries after it are none.
  split
  next heq =>
    cases heq
    rw [hentries]
    rfl
  next heq => exact absurd rfl (heq _ _)

/-- A variations block makes a program with metadata that have no entries. -/
theorem spelled_block {statements : List Statement} {ss b ss' : List Lexeme} (hss : Separators ss)
    (hblock : Block k b ss' statements) (hss' : Separators ss') (p q r : Position) :
    Spelled k (⟨.keyword .metadata, p⟩ :: ⟨.mark .leftBrace, q⟩ :: ⟨.mark .rightBrace, r⟩ ::
      (ss ++ (b ++ ss'))) ⟨Record.ofList [], statements⟩ :=
  .intro (metadata_empty p q r _) hss hblock hss'

/-- Any number of indices after one target take one level at most. -/
theorem exists_indices (n : Nat) (target : Expr) :
    ∃ k ps e, k ≤ 1 ∧ Indices Expression target k ps e ∧ e.height 1 = target.height 1 + n := by
  induction n generalizing target with
  | zero => exact ⟨0, [], target, Nat.zero_le _, .done, rfl⟩
  | succ n ih =>
    -- One index more is put before the others, as the innermost of the tree.
    obtain ⟨k, ps, e, hk, hindices, hheight⟩ := ih (.index target (.number 0 .start) .start)
    have hplace : Expression 0 [⟨.integer 0, .start⟩] (.number 0 .start) := Atom.expression .number
    refine ⟨max 1 k, ⟨.mark .leftBracket, .start⟩ :: ([] ++ ([⟨.integer 0, .start⟩] ++
      ([] ++ ⟨.mark .rightBracket, .start⟩ :: ps))), e, by omega,
      .more newlines_nil hplace newlines_nil hindices, ?_⟩
    rw [hheight]
    simp only [Expr.height]
    omega

/-- No limit but zero bounds the depth of trees: programs of any depth are read with a limit of one
level. -/
theorem exists_depth (n : Nat) : ∃ ts program, parse 1 ts = .ok program ∧ program.depth = n := by
  -- The program assigns to `x` the name `a` with `n` indices, all of which take the same level.
  obtain ⟨k, ps, e, hk, hindices, hheight⟩ := exists_indices n (.identifier "a" .start)
  have hvalue := product_expression (Operand.product (.intro .identifier hindices))
  have hassign : Written _ _ [⟨.mark .rightBrace, .start⟩] (.assign (.name "x") e .start) :=
    .assign (q := .start) .name hvalue (follow_separable (.inr (.inr ⟨.brace, rfl⟩)))
  have hblock : Block _ _ [] [.assign (.name "x") e .start] :=
    .plain (p := .start) (.braces (p := .start) newlines_nil
      (.more separators_nil hassign (.done separators_nil (Braced.brace (p := .start)))))
  have hspelled := spelled_block separators_nil hblock separators_nil .start .start .start
  refine ⟨_, _, (parse_reads hspelled 1).1 (by omega), ?_⟩
  unfold depth
  simp only [Statement.heights, Statement.height, hheight, Expr.height]
  omega

/-- The lexemes of a program that assigns `a[0][0]` to `x`. -/
def twoIndices : List Lexeme :=
  [⟨.keyword .metadata, ⟨1, 1⟩⟩, ⟨.mark .leftBrace, ⟨1, 10⟩⟩, ⟨.mark .rightBrace, ⟨1, 12⟩⟩,
    ⟨.newline, ⟨1, 13⟩⟩, ⟨.keyword .variations, ⟨2, 1⟩⟩, ⟨.mark .leftBrace, ⟨2, 12⟩⟩,
    ⟨.identifier "x", ⟨2, 14⟩⟩, ⟨.mark .equals, ⟨2, 16⟩⟩, ⟨.identifier "a", ⟨2, 18⟩⟩,
    ⟨.mark .leftBracket, ⟨2, 19⟩⟩, ⟨.integer 0, ⟨2, 20⟩⟩, ⟨.mark .rightBracket, ⟨2, 21⟩⟩,
    ⟨.mark .leftBracket, ⟨2, 22⟩⟩, ⟨.integer 0, ⟨2, 23⟩⟩, ⟨.mark .rightBracket, ⟨2, 24⟩⟩,
    ⟨.mark .rightBrace, ⟨2, 26⟩⟩]

/-- The program of these lexemes. -/
def twoIndicesProgram : Program :=
  ⟨Record.ofList [], [.assign (.name "x")
    (.index (.index (.identifier "a" ⟨2, 18⟩) (.number 0 ⟨2, 20⟩) ⟨2, 19⟩) (.number 0 ⟨2, 23⟩)
      ⟨2, 22⟩) ⟨2, 14⟩]⟩

/-- With two indices on one target, a tree of depth two is read under a limit of one level. -/
theorem parse_two_indices :
    parse 1 twoIndices = .ok twoIndicesProgram ∧ twoIndicesProgram.depth = 2 ∧
      ¬ ∀ l q, parse l twoIndices = .ok q → q.depth ≤ l := by
  -- Both indices are zero, and either takes one level alone.
  have hzero (p : Position) : Expression 0 [⟨.integer 0, p⟩] (.number 0 p) :=
    Atom.expression .number
  have hlast (target : Expr) : Indices Expression target 1
      [⟨.mark .leftBracket, ⟨2, 22⟩⟩, ⟨.integer 0, ⟨2, 23⟩⟩, ⟨.mark .rightBracket, ⟨2, 24⟩⟩]
      (.index target (.number 0 ⟨2, 23⟩) ⟨2, 22⟩) :=
    .more newlines_nil (hzero ⟨2, 23⟩) newlines_nil .done
  have hindices : Indices Expression (.identifier "a" ⟨2, 18⟩) 1
      [⟨.mark .leftBracket, ⟨2, 19⟩⟩, ⟨.integer 0, ⟨2, 20⟩⟩, ⟨.mark .rightBracket, ⟨2, 21⟩⟩,
        ⟨.mark .leftBracket, ⟨2, 22⟩⟩, ⟨.integer 0, ⟨2, 23⟩⟩, ⟨.mark .rightBracket, ⟨2, 24⟩⟩] _ :=
    .more newlines_nil (hzero ⟨2, 20⟩) newlines_nil (hlast _)
  have hvalue := product_expression (Operand.product (.intro .identifier hindices))
  have htarget : Target ⟨2, 14⟩ [⟨.identifier "x", ⟨2, 14⟩⟩] (.name "x") := .name
  have hassign : Written _ _ [⟨.mark .rightBrace, ⟨2, 26⟩⟩] (.assign (.name "x") _ ⟨2, 14⟩) :=
    .assign (q := ⟨2, 16⟩) htarget hvalue (follow_separable (.inr (.inr ⟨.brace, rfl⟩)))
  -- The block stands in braces after a line end, with this one statement.
  have hblock : Block 1 _ [] twoIndicesProgram.body :=
    .plain (p := ⟨2, 1⟩) (.braces (p := ⟨2, 12⟩) newlines_nil
      (.more separators_nil hassign (.done separators_nil (Braced.brace (p := ⟨2, 26⟩)))))
  have hseparators : Separators [⟨.newline, ⟨1, 13⟩⟩] := by
    intro t ht
    rw [List.mem_singleton.mp ht]
    exact .inl rfl
  have hspelled : Spelled 1 twoIndices twoIndicesProgram :=
    spelled_block hseparators hblock separators_nil _ _ _
  have hparse : parse 1 twoIndices = .ok twoIndicesProgram :=
    (parse_reads hspelled 1).1 (Nat.le_refl 1)
  have hdepth : twoIndicesProgram.depth = 2 := rfl
  -- If every limit that accepts the text bounded the depth, the limit of one level would.
  refine ⟨hparse, hdepth, fun hbound => ?_⟩
  obtain ⟨k, hk, -, -, -, hiff⟩ := parse_levels hparse
  have := hiff.mp hbound
  omega

end Program

end HandTemplate
