import HandTemplate.Fault.Grammar

/-!
# Grammar rules

A rule reads a construct off the front of a list of lexemes. Its result holds what was read and the
lexemes that are left, which are fewer than before: that is why the repetitions built from rules
end. `series` is the repetition that tuples, arguments and parenthesized names share.
-/

namespace HandTemplate

/-- What a rule has read, and what is left of fewer than `bound` lexemes. -/
structure Parsed (α : Type) (bound : Nat) where
  /-- What was read. -/
  value : α
  /-- The lexemes after it. -/
  rest : List Lexeme
  /-- Something was read. -/
  shorter : rest.length < bound

/-- A rule of the grammar for constructs of type `α`. -/
abbrev Rule (α : Type) := (ts : List Lexeme) → Except GrammarFault (Parsed α ts.length)

namespace Parsed

variable {α β : Type} {m n : Nat}

/-- A result under a weaker bound. -/
def widen (p : Parsed α m) (h : m ≤ n) : Parsed α n :=
  ⟨p.value, p.rest, Nat.lt_of_lt_of_le p.shorter h⟩

/-- A result whose value is changed. -/
def map (f : α → β) (p : Parsed α m) : Parsed β m := ⟨f p.value, p.rest, p.shorter⟩

/-- What follows the first lexeme that is left is shorter, too. -/
theorem length_lt_of_rest {p : Parsed α m} {t : Lexeme} {after : List Lexeme}
    (h : p.rest = t :: after) : after.length < m := by
  have hshorter := p.shorter
  rw [h] at hshorter
  exact Nat.lt_of_succ_lt hshorter

end Parsed

namespace Rule

variable {α : Type}

/-- What a rule reads and leaves, as a pair. -/
def run (rule : Rule α) (ts : List Lexeme) : Except GrammarFault (α × List Lexeme) :=
  (rule ts).map fun p => (p.value, p.rest)

/-- The fault that something else was expected at the front of some lexemes. -/
def expecting (expected : String) : List Lexeme → GrammarFault
  | [] => .endOfText expected
  | t :: _ => .unexpected expected t.token t.position

/-- Whether a token only separates statements. -/
def isSeparator (token : Token) : Bool := token = .newline || token = .mark .semicolon

/-- The lexemes from the first one on that is no line end. -/
def dropNewlines (ts : List Lexeme) : List Lexeme := ts.dropWhile (·.token = .newline)

/-- The lexemes from the first one on that separates no statements. -/
def dropSeparators (ts : List Lexeme) : List Lexeme := ts.dropWhile (isSeparator ·.token)

/-- No lexemes are added where line ends are dropped. -/
theorem length_dropNewlines_le (ts : List Lexeme) : (dropNewlines ts).length ≤ ts.length :=
  (List.dropWhile_sublist _).length_le

/-- No lexemes are added where separators are dropped. -/
theorem length_dropSeparators_le (ts : List Lexeme) : (dropSeparators ts).length ≤ ts.length :=
  (List.dropWhile_sublist _).length_le

/-- What follows the first lexeme after some line ends is shorter than all. -/
theorem length_lt_of_dropNewlines {ts after : List Lexeme} {t : Lexeme}
    (h : dropNewlines ts = t :: after) : after.length < ts.length := by
  have := length_dropNewlines_le ts
  rw [h] at this
  exact this

/-- What follows the first lexeme after some separators is shorter than all. -/
theorem length_lt_of_dropSeparators {ts after : List Lexeme} {t : Lexeme}
    (h : dropSeparators ts = t :: after) : after.length < ts.length := by
  have := length_dropSeparators_le ts
  rw [h] at this
  exact this

/-- What follows one lexeme is shorter than the whole. -/
theorem length_lt_of_one (ts : List Lexeme) : ts.length < ts.length + 1 := Nat.lt_succ_self _

/-- What follows one lexeme is no longer than the whole. -/
theorem length_le_of_one (ts : List Lexeme) : ts.length ≤ ts.length + 1 := Nat.le_succ _

/-- What follows two lexemes is no longer than the whole. -/
theorem length_le_of_two (ts : List Lexeme) : ts.length ≤ ts.length + 2 := Nat.le_add_right _ 2

/-- The rule for one name. -/
def name : Rule String
  | ⟨.identifier name, _⟩ :: after => .ok ⟨name, after, length_lt_of_one after⟩
  | ts => .error (expecting "identifier" ts)

/-- The rule for items up to the end of a delimiter that was opened before. A comma stands between
two items and may stand after the last; lines may end anywhere between items and commas. -/
def series (item : Rule α) (delimiter : Delimiter) (opened : Position) (ts : List Lexeme) :
    Except GrammarFault (Parsed (List α) ts.length) :=
  match hfirst : dropNewlines ts with
  | [] => .error (.unclosed delimiter opened)
  | t :: after =>
    if t.token = .mark delimiter.closing then
      .ok ⟨[], after, length_lt_of_dropNewlines hfirst⟩
    else do
      let first ← item (t :: after)
      have hitem : first.rest.length < ts.length :=
        Nat.lt_of_lt_of_le first.shorter (hfirst ▸ length_dropNewlines_le ts)
      match hnext : dropNewlines first.rest with
      | [] => .error (.unclosed delimiter opened)
      | u :: after' =>
        have hafter : after'.length < ts.length :=
          Nat.lt_trans (length_lt_of_dropNewlines hnext) hitem
        if u.token = .mark .comma then do
          let others ← series item delimiter opened after'
          return ⟨first.value :: others.value, others.rest, Nat.lt_trans others.shorter hafter⟩
        else if u.token = .mark delimiter.closing then
          return ⟨[first.value], after', hafter⟩
        else
          let expected := "',' or " ++ (Token.mark delimiter.closing).words
          .error (.unexpected expected u.token u.position)
termination_by ts.length

end Rule

end HandTemplate
