import Mathlib
import HandTemplate.Proofs.Grammar.Series

/-!
# Faults of rules

A fault of a rule names one of the lexemes that the rule is given, and none but the fault for too
deep a nesting depends on the limit. Both are shown at once, by following two runs of the same rule
under two limits: the runs agree up to the point where the first of them is too deep (`Agree`), and
whatever they read or name up to there stands among the given lexemes.
-/

namespace HandTemplate

/-- One of some lexemes stands at the position. -/
def Position.Among (ts : List Lexeme) (p : Position) : Prop := ∃ token, ⟨token, p⟩ ∈ ts

namespace GrammarFault

/-- A fault names a lexeme: the token that it has found at its position, the mark that opens its
delimiter, or some token at its position. Only a fault at the end of the text names none. -/
def Names (ts : List Lexeme) : GrammarFault → Prop
  | noMetadata found p | noVariations found p | noStatement found p | noIn found p
  | unexpected _ found p | trailing found p => ⟨found, p⟩ ∈ ts
  | unclosed delimiter p => ⟨.mark delimiter.opening, p⟩ ∈ ts
  | tooDeep _ p => p.Among ts
  | endOfText _ => True

/-- What is expected in front of some lexemes is missed at the first of them. -/
theorem names_expecting (expected : String) {ts W : List Lexeme} (hts : ts ⊆ W) :
    (Rule.expecting expected ts).Names W := by
  cases ts with
  | nil => trivial
  | cons t ts => exact hts (List.mem_cons_self ..)

end GrammarFault

namespace Rule

open Grammar

variable {α β : Type} {limit limit' room room' : Nat} {W : List Lexeme}

/-- Two runs of a rule over lexemes of `W`, the second one under a limit that is no lower, agree:
they read the same value, which has the property `V`, and leave the same lexemes of `W`; or they
have the same fault, which names a lexeme of `W`; or the first run is too deep. -/
inductive Agree (W : List Lexeme) (V : α → Prop) :
    Except GrammarFault (α × List Lexeme) → Except GrammarFault (α × List Lexeme) → Prop where
  | ok {a : α} {rest : List Lexeme} (hvalue : V a) (hrest : rest ⊆ W) :
      Agree W V (.ok (a, rest)) (.ok (a, rest))
  | error {e : GrammarFault} (hnames : e.Names W) : Agree W V (.error e) (.error e)
  | tooDeep {limit : Nat} {p : Position} (hp : p.Among W)
      (r : Except GrammarFault (α × List Lexeme)) : Agree W V (.error (.tooDeep limit p)) r

variable {V : α → Prop} {r r' : Except GrammarFault (α × List Lexeme)}

/-- Runs that agree go on to agree if what follows them does. -/
theorem Agree.bind (h : Agree W V r r') {V' : β → Prop}
    {f f' : α × List Lexeme → Except GrammarFault (β × List Lexeme)}
    (hf : ∀ a rest, r = .ok (a, rest) → V a → rest ⊆ W → Agree W V' (f (a, rest)) (f' (a, rest))) :
    Agree W V' (r >>= f) (r' >>= f') := by
  cases h with
  | ok hvalue hrest => exact hf _ _ rfl hvalue hrest
  | error hnames => exact .error hnames
  | tooDeep hp r => exact .tooDeep hp _

/-- Runs that go one level deeper agree if they do where both have that level. -/
theorem Agree.deeper {rule rule' : Nat → β} {f f' : β → Except GrammarFault (α × List Lexeme)}
    {token : Token} {p : Position} (hp : ⟨token, p⟩ ∈ W) (hroom : room ≤ room')
    (h : ∀ n n', room = n + 1 → room' = n' + 1 → n ≤ n' → Agree W V (f (rule n)) (f' (rule' n'))) :
    Agree W V (Expr.oneDeeper limit (below rule room) p >>= f)
      (Expr.oneDeeper limit' (below rule' room') p >>= f') := by
  cases room with
  | zero => exact .tooDeep ⟨token, hp⟩ _
  | succ n =>
    cases room' with
    | zero => exact absurd hroom (Nat.not_succ_le_zero n)
    | succ n' => exact h n n' rfl rfl (Nat.le_of_succ_le_succ hroom)

/-- Two rules agree on all lexemes of `W`. -/
def Agrees (W : List Lexeme) (V : α → Prop) (rule rule' : Rule α) : Prop :=
  ∀ ts, ts ⊆ W → Agree W V (rule.run ts) (rule'.run ts)

/-- What is left when lexemes are dropped was there before. -/
theorem dropWhile_subset {ts : List Lexeme} (hts : ts ⊆ W) (drops : Lexeme → Bool) :
    ts.dropWhile drops ⊆ W :=
  fun _ ht => hts ((List.dropWhile_sublist drops).subset ht)

/-- What is left when newlines are dropped was there before. -/
theorem dropNewlines_subset {ts : List Lexeme} (hts : ts ⊆ W) : dropNewlines ts ⊆ W :=
  dropWhile_subset hts _

/-- What is left when separators are dropped was there before. -/
theorem dropSeparators_subset {ts : List Lexeme} (hts : ts ⊆ W) : dropSeparators ts ⊆ W :=
  dropWhile_subset hts _

/-- A first lexeme and those after it are all among some lexemes. -/
theorem mem_and_subset_of_cons {t : Lexeme} {ts : List Lexeme} (h : t :: ts ⊆ W) :
    t ∈ W ∧ ts ⊆ W := List.cons_subset.1 h

/-- Series agree if their items do. -/
theorem series_agrees {rule rule' : Rule α} (hitem : Agrees W V rule rule') {d : Delimiter}
    {opened : Position} (hopened : ⟨.mark d.opening, opened⟩ ∈ W) :
    Agrees W (fun as => ∀ a ∈ as, V a) (series rule d opened) (series rule' d opened) := by
  intro ts hts
  -- By induction on the number of lexemes. Both runs are given the same ones, so that they part
  -- only where an item is too deep for the first.
  induction hlength : ts.length using Nat.strongRecOn generalizing ts with
  | ind n ih =>
  subst hlength
  rw [series_run, series_run]
  have hdrop := dropNewlines_subset hts
  cases heq : dropNewlines ts with
  | nil => exact .error hopened
  | cons t after =>
  rw [heq] at hdrop
  have hafter := (mem_and_subset_of_cons hdrop).2
  dsimp only
  split
  -- After an item comes a comma, the closing mark, or what is unexpected.
  · exact .ok (fun a ha => (nomatch ha)) hafter
  refine (hitem _ hdrop).bind fun a rest hrun ha hrest => ?_
  have hnext := dropNewlines_subset hrest
  dsimp only
  cases heq' : dropNewlines rest with
  | nil => exact .error hopened
  | cons u after' =>
  rw [heq'] at hnext
  obtain ⟨hu, hafter'⟩ := mem_and_subset_of_cons hnext
  dsimp only
  split
  · -- The series after the comma is shorter, and the induction applies to it.
    have hitemShorter := length_lt_of_run hrun
    have hdropShorter := length_dropNewlines_le ts
    have hcommaShorter := length_lt_of_dropNewlines heq'
    rw [heq] at hdropShorter
    exact (ih _ (by omega) _ hafter' rfl).bind fun as rest' _ has hrest' =>
      .ok (List.forall_mem_cons.2 ⟨ha, has⟩) hrest'
  split
  · exact .ok (by simpa using ha) hafter'
  · exact .error hu

end Rule

end HandTemplate
