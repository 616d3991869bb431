import Mathlib.Data.List.TakeWhile
import HandTemplate.Proofs.Grammar.Series

/-!
# Rules and what follows the lexemes they are given

A rule is run over some lexemes, and again with more lexemes after them. If the first run leaves
lexemes other than line ends, or stops at one with a fault, then it has looked at nothing beyond
them, and the second run does the same (`Prolonged`). Otherwise the first run is undecided: it has
come to the end of the lexemes, or to line ends up to there, and what follows may change anything.
-/

namespace HandTemplate

open Grammar

/-- A fault that more lexemes may remove: the text ends too early, or the fault is found at line
ends that nothing else follows. -/
inductive GrammarFault.AtEnd (ts : List Lexeme) : GrammarFault → Prop where
  | endOfText (expected : String) : AtEnd ts (.endOfText expected)
  | unclosed (d : Delimiter) (opened : Position) : AtEnd ts (.unclosed d opened)
  | newlines {e : GrammarFault} {t : Lexeme} {before after : List Lexeme}
      (hts : ts = before ++ t :: after) (hposition : e.position? = some t.position)
      (hnewlines : Newlines (t :: after)) : AtEnd ts e

namespace Rule

variable {α β : Type} {W more ts : List Lexeme}

/-- A run over lexemes at the end of `W` that has nothing but line ends before it where it stops. -/
inductive Undecided (W : List Lexeme) : Except GrammarFault (α × List Lexeme) → Prop where
  | ok {a : α} {rest : List Lexeme} (hrest : Newlines rest) (hsuffix : rest <:+ W) :
      Undecided W (.ok (a, rest))
  | error {e : GrammarFault} (he : e.AtEnd W) : Undecided W (.error e)

/-- Two runs over lexemes at the end of `W`, the second one with `more` after them, do the same, or
the first one is undecided. -/
inductive Prolonged (W more : List Lexeme) :
    Except GrammarFault (α × List Lexeme) → Except GrammarFault (α × List Lexeme) → Prop where
  | ok {a : α} {rest : List Lexeme} (hsuffix : rest <:+ W) :
      Prolonged W more (.ok (a, rest)) (.ok (a, rest ++ more))
  | error (e : GrammarFault) : Prolonged W more (.error e) (.error e)
  | undecided {r : Except GrammarFault (α × List Lexeme)} (hr : Undecided W r)
      (r' : Except GrammarFault (α × List Lexeme)) : Prolonged W more r r'

/-- Reading some lexemes at the end of `W` does the same with `more` after them, unless it is
undecided, as it is where there are only line ends. -/
structure Continues (W more : List Lexeme)
    (read : List Lexeme → Except GrammarFault (α × List Lexeme)) (ts : List Lexeme) : Prop where
  /-- More lexemes change nothing that is decided. -/
  prolonged : Prolonged W more (read ts) (read (ts ++ more))
  /-- Line ends decide nothing. -/
  undecided : Newlines ts → Undecided W (read ts)

/-- A rule does the same on all lexemes at the end of `W` with `more` after them, unless it is
undecided. -/
def Continuing (W more : List Lexeme) (rule : Rule α) : Prop :=
  ∀ ts, ts <:+ W → Continues W more rule.run ts

/-- What stands after one lexeme stands at the end, too. -/
theorem suffix_of_cons {t : Lexeme} (h : t :: ts <:+ W) : ts <:+ W :=
  (List.suffix_cons t ts).trans h

/-- What is read after an undecided run is undecided if it is for line ends. -/
theorem Undecided.bind {r : Except GrammarFault (α × List Lexeme)} (h : Undecided W r)
    {f : α × List Lexeme → Except GrammarFault (β × List Lexeme)}
    (hf : ∀ a rest, r = .ok (a, rest) → Newlines rest → rest <:+ W → Undecided W (f (a, rest))) :
    Undecided W (r >>= f) := by
  cases h with
  | ok hrest hsuffix => exact hf _ _ rfl hrest hsuffix
  | error he => exact .error he

/-- Runs that do the same go on to do so if what is read after them does. -/
theorem Prolonged.bind {r r' : Except GrammarFault (α × List Lexeme)} (h : Prolonged W more r r')
    {f : α × List Lexeme → Except GrammarFault (β × List Lexeme)}
    (hf : ∀ a rest, r = .ok (a, rest) → rest <:+ W → Continues W more (fun us => f (a, us)) rest) :
    Prolonged W more (r >>= f) (r' >>= f) := by
  cases h with
  | ok hsuffix => exact (hf _ _ rfl hsuffix).prolonged
  | error e => exact .error e
  | undecided hr =>
    exact .undecided (hr.bind fun a rest heq hrest hsuffix =>
      (hf a rest heq hsuffix).undecided hrest) _

namespace Continues

variable {read : List Lexeme → Except GrammarFault (α × List Lexeme)}

/-- One thing is read after another. -/
theorem bind (h : Continues W more read ts)
    {f : α × List Lexeme → Except GrammarFault (β × List Lexeme)}
    (hf : ∀ a rest, read ts = .ok (a, rest) → rest <:+ W →
      Continues W more (fun us => f (a, us)) rest) :
    Continues W more (fun us => read us >>= f) ts :=
  ⟨h.prolonged.bind hf, fun hts => (h.undecided hts).bind fun a rest heq hrest hsuffix =>
    (hf a rest heq hsuffix).undecided hrest⟩

/-- Nothing is read. -/
theorem ok (a : α) (hts : ts <:+ W) : Continues W more (fun us => .ok (a, us)) ts :=
  ⟨.ok hts, fun hnewlines => .ok hnewlines hts⟩

/-- The same is read in two ways, with more lexemes and without them. -/
theorem congr {read' : List Lexeme → Except GrammarFault (α × List Lexeme)}
    (h : Continues W more read' ts) (hread : read ts = read' ts)
    (hmore : read (ts ++ more) = read' (ts ++ more)) : Continues W more read ts :=
  ⟨by rw [hread, hmore]; exact h.prolonged, fun hnewlines => hread ▸ h.undecided hnewlines⟩

/-- What is read from a lexeme other than a line end on. -/
theorem of_head {t : Lexeme} (ht : t.token ≠ .newline)
    (h : Prolonged W more (read (t :: ts)) (read (t :: (ts ++ more)))) :
    Continues W more read (t :: ts) :=
  ⟨h, fun hnewlines => absurd (hnewlines t (List.mem_cons_self ..)) ht⟩

/-- What is read from the end of the lexemes on. -/
theorem of_nil (h : Undecided W (read [])) : Continues W more read [] :=
  ⟨.undecided h _, fun _ => h⟩

end Continues

/-- A fault at the first of some lexemes that are nothing but line ends. -/
theorem atEnd_of_newlines {t : Lexeme} {after : List Lexeme} (hts : t :: after <:+ W)
    (hnewlines : Newlines (t :: after)) {e : GrammarFault} (he : e.position? = some t.position) :
    e.AtEnd W := by
  obtain ⟨before, hW⟩ := hts
  exact .newlines hW.symm he hnewlines

/-- What is missed in front of some lexemes is missed there whatever follows them. -/
theorem Continues.expecting (expected : String) (hts : ts <:+ W) :
    Continues (α := α) W more (fun us => .error (expecting expected us)) ts := by
  cases ts with
  | nil => exact .of_nil (.error (.endOfText expected))
  | cons t after => exact ⟨.error _, fun hnewlines => .error (atEnd_of_newlines hts hnewlines rfl)⟩

/-- A mark that may stand first is seen there whatever follows. -/
theorem Continues.optional {read : List Lexeme → Except GrammarFault (α × List Lexeme)} {m : Mark}
    {a : α} (hts : ts <:+ W)
    (hdone : ∀ us : List Lexeme, (∀ t ∈ us.head?, t.token ≠ .mark m) → read us = .ok (a, us))
    (hmore : ∀ p after, ts = ⟨.mark m, p⟩ :: after →
      Prolonged W more (read ts) (read (ts ++ more))) :
    Continues W more read ts := by
  rcases mark_or_not m ts with ⟨p, after, heq⟩ | hhead
  · refine ⟨hmore p after heq, fun hnewlines => ?_⟩
    have hmark := hnewlines ⟨.mark m, p⟩ (heq ▸ List.mem_cons_self ..)
    cases hmark
  · refine ⟨?_, fun hnewlines => hdone ts hhead ▸ .ok hnewlines hts⟩
    rw [hdone ts hhead]
    cases ts with
    | nil => exact .undecided (.ok newlines_nil hts) _
    | cons t after =>
      rw [hdone (t :: after ++ more) hhead]
      exact .ok hts

/-! ## Dropping lexemes -/

/-- The first lexeme that is not dropped stays the first one when more follow. -/
theorem dropWhile_append_eq_cons {drops : Lexeme → Bool} {t : Lexeme} {after : List Lexeme}
    (h : ts.dropWhile drops = t :: after) (more : List Lexeme) :
    (ts ++ more).dropWhile drops = t :: (after ++ more) := by
  induction ts with
  | nil => cases h
  | cons u ts ih =>
    rw [List.cons_append]
    by_cases hu : drops u = true
    · rw [List.dropWhile_cons_of_pos hu] at h ⊢
      exact ih h
    · rw [List.dropWhile_cons_of_neg hu] at h ⊢
      cases h
      rfl

/-- Lexemes that are all dropped are line ends. -/
theorem newlines_of_dropNewlines (h : dropNewlines ts = []) : Newlines ts :=
  fun t ht => of_decide_eq_true (List.dropWhile_eq_nil_iff.mp h t ht)

/-- What is read after lexemes are dropped, line ends at least, is decided by the first one that
stays. -/
theorem Continues.dropWhile {read : List Lexeme → Except GrammarFault (α × List Lexeme)}
    (drops : Lexeme → Bool) (hdrops : ∀ t : Lexeme, t.token = .newline → drops t = true)
    (hts : ts <:+ W) (hnone : ts.dropWhile drops = [] → Undecided W (read ts))
    (hsome : ∀ t after, ts.dropWhile drops = t :: after →
      (ts ++ more).dropWhile drops = t :: (after ++ more) → t :: after <:+ W →
        Prolonged W more (read ts) (read (ts ++ more))) :
    Continues W more read ts := by
  cases heq : ts.dropWhile drops with
  | nil => exact ⟨.undecided (hnone heq) _, fun _ => hnone heq⟩
  | cons t after =>
    have hafter : t :: after <:+ W := heq ▸ (List.dropWhile_suffix drops).trans hts
    refine ⟨hsome t after heq (dropWhile_append_eq_cons heq more) hafter, fun hnewlines => ?_⟩
    have hnil : ts.dropWhile drops = [] :=
      List.dropWhile_eq_nil_iff.mpr fun u hu => hdrops u (hnewlines u hu)
    rw [hnil] at heq
    cases heq

/-- What is read after line ends are dropped. -/
theorem Continues.dropNewlines {read : List Lexeme → Except GrammarFault (α × List Lexeme)}
    (hts : ts <:+ W) (hnone : dropNewlines ts = [] → Undecided W (read ts))
    (hsome : ∀ t after, dropNewlines ts = t :: after →
      dropNewlines (ts ++ more) = t :: (after ++ more) → t :: after <:+ W →
        Prolonged W more (read ts) (read (ts ++ more))) :
    Continues W more read ts :=
  .dropWhile _ (fun _ ht => decide_eq_true ht) hts hnone hsome

/-- What is read after separators are dropped. -/
theorem Continues.dropSeparators {read : List Lexeme → Except GrammarFault (α × List Lexeme)}
    (hts : ts <:+ W) (hnone : dropSeparators ts = [] → Undecided W (read ts))
    (hsome : ∀ t after, dropSeparators ts = t :: after →
      dropSeparators (ts ++ more) = t :: (after ++ more) → t :: after <:+ W →
        Prolonged W more (read ts) (read (ts ++ more))) :
    Continues W more read ts :=
  .dropWhile _ (fun t ht => by simp [isSeparator, ht]) hts hnone hsome

/-! ## Levels and series -/

/-- One level deeper, runs do the same if there is such a level and they do there. -/
theorem Prolonged.deeper {limit room : Nat} {rule : Nat → β} {p : Position}
    {f f' : β → Except GrammarFault (α × List Lexeme)}
    (h : ∀ n < room, Prolonged W more (f (rule n)) (f' (rule n))) :
    Prolonged W more (Expr.oneDeeper limit (below rule room) p >>= f)
      (Expr.oneDeeper limit (below rule room) p >>= f') := by
  cases room with
  | zero => exact .error _
  | succ n => exact h n (Nat.lt_succ_self n)

/-- Series are decided if their items are. -/
theorem series_continues {rule : Rule α} (hitem : Continuing W more rule) (d : Delimiter)
    (opened : Position) : Continuing W more (series rule d opened) := by
  intro ts hts
  -- By induction on the number of lexemes, which every item with its comma makes smaller.
  induction hlength : ts.length using Nat.strongRecOn generalizing ts with
  | ind n ih =>
  subst hlength
  refine .dropNewlines hts (fun heq => ?_) fun t after heq heq' hafter => ?_
  · rw [series_run, heq]
    exact .error (.unclosed d opened)
  rw [series_run, series_run, heq, heq']
  dsimp only
  split
  · exact .ok (suffix_of_cons hafter)
  -- After an item comes a comma, the closing mark, or what is unexpected.
  refine (hitem _ hafter).prolonged.bind fun a rest hrun hrest => ?_
  refine .dropNewlines hrest (fun heq' => ?_) fun u after' hnext hnext' hafter' => ?_
  · dsimp only
    rw [heq']
    exact .error (.unclosed d opened)
  dsimp only
  rw [hnext, hnext']
  dsimp only
  have hsuffix := suffix_of_cons hafter'
  split
  · -- The series after the comma is shorter, and the induction applies to it.
    have hitemShorter := length_lt_of_run hrun
    have hdropShorter := length_dropNewlines_le ts
    have hcommaShorter := length_lt_of_dropNewlines hnext
    rw [heq] at hdropShorter
    exact (ih _ (by omega) _ hsuffix rfl).prolonged.bind fun as rest' _ hrest' =>
      Continues.ok (a :: as) hrest'
  split
  · exact .ok hsuffix
  · exact .error _

/-- Items one after the other up to a closing mark, with lexemes between them that are dropped, are
decided if the items are. -/
theorem repetition_continues {drops : Lexeme → Bool}
    (hdrops : ∀ t : Lexeme, t.token = .newline → drops t = true) {item : Rule α} {closing : Mark}
    {d : Delimiter} {opened : Position}
    {read : List Lexeme → Except GrammarFault (List α × List Lexeme)}
    (hread : ∀ ts, read ts =
      match ts.dropWhile drops with
      | [] => .error (.unclosed d opened)
      | t :: after =>
        if t.token = .mark closing then .ok ([], after)
        else item.run (t :: after) >>= fun first =>
          read first.2 >>= fun others => .ok (first.1 :: others.1, others.2))
    (hitem : Continuing W more item) (hts : ts <:+ W) : Continues W more read ts := by
  -- By induction on the number of lexemes, which every item makes smaller.
  induction hlength : ts.length using Nat.strongRecOn generalizing ts with
  | ind n ih =>
  subst hlength
  refine .dropWhile drops hdrops hts (fun heq => ?_) fun t after heq heq' hafter => ?_
  · rw [hread, heq]
    exact .error (.unclosed d opened)
  have hdropShorter := (List.dropWhile_suffix (l := ts) drops).length_le
  rw [heq] at hdropShorter
  rw [hread, hread, heq, heq']
  dsimp only
  split
  · exact .ok (suffix_of_cons hafter)
  refine (hitem _ hafter).prolonged.bind fun first rest hrun hrest => ?_
  have hitemShorter := length_lt_of_run hrun
  dsimp only
  exact (ih _ (by omega) hrest rfl).bind fun others rest' _ hrest' => .ok (first :: others) hrest'

end Rule

end HandTemplate
