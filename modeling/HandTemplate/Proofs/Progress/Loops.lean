import HandTemplate.Proofs.Outcome
import HandTemplate.Rule

/-!
# Loops that may not end

A loop takes turns until one of them leaves it, and nothing in its definition makes it end. What it
gives is a `Running` computation, which has an outcome only if it ends: a loop that always goes on
has none (`loop_endless`). If every turn that goes on leaves less than it was given (`Shortens`),
then the loop ends, and it gives what satisfies its equation (`loop_eq`).
-/

namespace HandTemplate

/-- What is left of some lexemes after one of them or more. -/
def ProperSuffix (rest ts : List Lexeme) : Prop := rest <:+ ts ∧ rest ≠ ts

namespace ProperSuffix

variable {rest us ts : List Lexeme}

/-- The end of some lexemes is a proper part of them if it is shorter. -/
theorem of_length (h : rest <:+ ts) (hlength : rest.length < ts.length) : ProperSuffix rest ts :=
  ⟨h, fun heq => absurd (congrArg List.length heq) (Nat.ne_of_lt hlength)⟩

/-- A proper part is shorter. -/
theorem length_lt (h : ProperSuffix rest ts) : rest.length < ts.length :=
  Nat.lt_of_le_of_ne h.1.length_le fun heq => h.2 (h.1.eq_of_length heq)

/-- A proper part of the end is a proper part of the whole. -/
theorem trans_suffix (h : ProperSuffix rest us) (hus : us <:+ ts) : ProperSuffix rest ts :=
  of_length (h.1.trans hus) (Nat.lt_of_lt_of_le h.length_lt hus.length_le)

/-- What follows the first lexeme of what is left. -/
theorem of_cons {t : Lexeme} (h : t :: rest <:+ ts) : ProperSuffix rest ts :=
  of_length ((List.suffix_cons t rest).trans h) h.length_le

end ProperSuffix

/-- A computation that may not end: a result or a fault, or nothing if it runs on and on. -/
abbrev Running (α : Type) := ExceptT GrammarFault Option α

namespace Running

variable {α β : Type}

/-- The computation that has ended with an outcome. -/
def ended (r : Except GrammarFault α) : Running α := ExceptT.mk (some r)

/-- Computations that have ended are the same if their outcomes are. -/
theorem ended_inj {r r' : Except GrammarFault α} : ended r = ended r' ↔ r = r' :=
  ⟨Option.some.inj, congrArg ended⟩

/-- Of two computations in a row, the second goes on from the outcome of the first. -/
theorem bind_ended {c : Running α} {r : Except GrammarFault α} {next : α → Running β}
    {f : α → Except GrammarFault β} (hc : c = ended r)
    (hnext : ∀ a, r = .ok a → next a = ended (f a)) : c >>= next = ended (r >>= f) := by
  subst hc
  cases r with
  | error e => rfl
  | ok a => exact hnext a rfl

/-- Of two computations in a row that give a result, both do. -/
theorem bind_eq_ok {c : Running α} {next : α → Running β} {b : β} :
    c >>= next = ended (.ok b) ↔ ∃ a, c = ended (.ok a) ∧ next a = ended (.ok b) := by
  rcases c with _ | e | a
  · exact ⟨fun h => (nomatch h), fun ⟨_, h, _⟩ => (nomatch h)⟩
  · exact ⟨fun h => (nomatch h), fun ⟨_, h, _⟩ => (nomatch h)⟩
  · exact ⟨fun h => ⟨a, rfl, h⟩, fun ⟨_, h, hb⟩ => by cases h; exact hb⟩

end Running

/-- What one turn of a loop comes to. -/
inductive Turn (σ α : Type) where
  /-- The loop goes on with the lexemes that are left. -/
  | again (state : σ) (rest : List Lexeme)
  /-- The loop is left. -/
  | done (value : α) (rest : List Lexeme)

/-- What a loop gives that has come to a turn: it takes one turn after the other until one of them
leaves it. -/
def Turn.onwards {σ α : Type} (turn : σ → List Lexeme → Running (Turn σ α)) :
    Turn σ α → Option (Except GrammarFault (α × List Lexeme))
  | .done value rest => some (.ok (value, rest))
  | .again state rest =>
    match turn state rest with
    | none => none
    | some (.error e) => some (.error e)
    | some (.ok next) => next |>.onwards turn
partial_fixpoint

/-- A rule made of loops, which may not end. -/
abbrev Looping (α : Type) := List Lexeme → Running (α × List Lexeme)

namespace Looping

open Running (ended)

variable {σ α : Type} {turn : σ → List Lexeme → Running (Turn σ α)}

/-- A loop that begins in some state. -/
def loop (turn : σ → List Lexeme → Running (Turn σ α)) (state : σ) : Looping α := fun ts =>
  (Turn.again state ts).onwards turn

/-- A loop that keeps coming to where it goes on never ends. -/
theorem loop_endless {P : σ → List Lexeme → Prop}
    (hturn : ∀ state ts, P state ts →
      ∃ next rest, turn state ts = ended (.ok (.again next rest)) ∧ P next rest)
    {state : σ} {ts : List Lexeme} (h : P state ts) : loop turn state ts = none := by
  -- Of all outcomes it could have, none is reached in a number of turns.
  have hnone : ∀ (t : Turn σ α) r, t.onwards turn = some r → ∀ s us, t = .again s us →
      ¬ P s us := by
    refine Turn.onwards.partial_correctness turn _ fun onwards ih t r hr s us ht hs => ?_
    subst ht
    obtain ⟨next, rest, hagain, hnext⟩ := hturn s us hs
    dsimp only at hr
    rw [hagain] at hr
    exact ih _ r hr next rest rfl hnext
  exact Option.eq_none_iff_forall_ne_some.mpr fun r hr => hnone _ r hr state ts rfl h

/-- Every turn after which a loop goes on leaves a proper part of what it was given. -/
def Shortens (turn : σ → List Lexeme → Running (Turn σ α)) : Prop :=
  ∀ {state ts next rest}, turn state ts = ended (.ok (.again next rest)) → ProperSuffix rest ts

/-- What a loop gives after one turn, if it goes on with `f`. -/
def follow (f : σ → List Lexeme → Except GrammarFault (α × List Lexeme)) :
    Turn σ α → Except GrammarFault (α × List Lexeme)
  | .again next rest => f next rest
  | .done value rest => .ok (value, rest)

/-- A loop whose turns leave less and less ends, with what satisfies its equation. -/
theorem loop_eq {f : σ → List Lexeme → Except GrammarFault (α × List Lexeme)}
    (hshort : Shortens turn)
    (hturn : ∀ state ts, (turn state ts >>= fun t => ended (follow f t)) = ended (f state ts))
    (state : σ) (ts : List Lexeme) : loop turn state ts = ended (f state ts) := by
  -- By induction on the number of lexemes, which becomes smaller with every turn.
  induction hlength : ts.length using Nat.strongRecOn generalizing state ts with
  | ind n ih =>
  subst hlength
  have hfirst := hturn state ts
  rw [loop, Turn.onwards]
  rcases hresult : turn state ts with _ | e | ⟨next, rest⟩ | ⟨value, rest⟩
  all_goals rw [hresult] at hfirst
  · cases hfirst
  · exact hfirst
  · exact (ih _ (hshort hresult).length_lt next rest rfl).trans hfirst
  · dsimp only
    rw [Turn.onwards]
    exact hfirst

end Looping

end HandTemplate
