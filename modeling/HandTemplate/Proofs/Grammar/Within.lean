import HandTemplate.Proofs.Grammar.Spelling
import HandTemplate.Proofs.Outcome
import HandTemplate.Expr.Parser

/-!
# Rules and what they read

What it means that a rule reads the constructs that are spelled in some way, and reads nothing else.
A rule is given some room for nesting: it reads what takes no more levels than that, and faults with
the limit on nesting at what takes more.
-/

namespace HandTemplate

namespace Grammar

variable {α β : Type} {limit room k m : Nat}

/-- A computation gives a result if that takes no more levels than there is room for, and otherwise
fails for its depth. -/
def Within (limit k room : Nat) (r : Except GrammarFault α) (a : α) : Prop :=
  (k ≤ room → r = .ok a) ∧ (room < k → ∃ p, r = .error (.tooDeep limit p))

/-- What takes no levels is given in any case. -/
theorem Within.ok (a : α) : Within limit 0 room (.ok a) a :=
  ⟨fun _ => rfl, fun h => absurd h (Nat.not_lt_zero _)⟩

/-- The levels of two computations, one after the other, are the larger number of levels. -/
theorem Within.bind {r : Except GrammarFault α} {a : α} {f : α → Except GrammarFault β} {b : β}
    (hr : Within limit k room r a) (hf : Within limit m room (f a) b) :
    Within limit (max k m) room (r >>= f) b := by
  constructor
  · intro hroom
    rw [hr.1 (by omega)]
    exact hf.1 (by omega)
  · intro hroom
    -- The first computation to lack room fails, and nothing after it is run.
    rcases Nat.lt_or_ge room k with hk | hk
    · obtain ⟨p, hp⟩ := hr.2 hk
      exact ⟨p, by rw [hp]; rfl⟩
    · obtain ⟨p, hp⟩ := hf.2 (by omega)
      exact ⟨p, by rw [hr.1 hk]; exact hp⟩

/-- A computation whose result is only rearranged takes the same levels. -/
theorem Within.map {r : Except GrammarFault α} {a : α} {f : α → Except GrammarFault β} {b : β}
    (hr : Within limit k room r a) (hf : f a = .ok b) : Within limit k room (r >>= f) b := by
  have hnone : Within limit 0 room (f a) b := by
    rw [hf]
    exact Within.ok b
  simpa only [Nat.max_zero] using hr.bind hnone

/-- The rules one level deeper, if there is such a level. -/
def below (rule : Nat → α) : Nat → Option α
  | 0 => none
  | room + 1 => some (rule room)

/-- One level more needs room for one more. -/
theorem Within.succ {r : Except GrammarFault α} {a : α} (h : Within limit k room r a) :
    Within limit (k + 1) (room + 1) r a :=
  ⟨fun hroom => h.1 (by omega), fun hroom => h.2 (by omega)⟩

/-- What is read one level deeper takes one level more. -/
theorem Within.deeper {rule : Nat → β} {f : β → Except GrammarFault α} {a : α} (p : Position)
    (h : ∀ r, room = r + 1 → Within limit k r (f (rule r)) a) :
    Within limit (k + 1) room (Expr.oneDeeper limit (below rule room) p >>= f) a := by
  cases room with
  | zero => exact ⟨fun h => absurd h (by omega), fun _ => ⟨p, rfl⟩⟩
  | succ r => exact (h r rfl).succ

/-- What is read one level deeper is read with less room. -/
theorem deeper_eq_ok {rule : Nat → β} {f : β → Except GrammarFault α} {a : α} {p : Position} :
    Expr.oneDeeper limit (below rule room) p >>= f = .ok a ↔
      ∃ r, room = r + 1 ∧ f (rule r) = .ok a := by
  cases room with
  | zero => exact ⟨fun h => (nomatch h), fun ⟨_, h, _⟩ => (nomatch h)⟩
  | succ r =>
    constructor
    · intro h
      exact ⟨r, rfl, h⟩
    · rintro ⟨_, ⟨⟩, h⟩
      exact h

end Grammar

namespace Rule

open Grammar

variable {α β : Type} {m n : Nat}

/-- What was read and what is left, as a pair. -/
def pair (r : Except GrammarFault (Parsed α n)) : Except GrammarFault (α × List Lexeme) :=
  r.map fun p => (p.value, p.rest)

/-- What a rule gives without the bound on what is left. -/
theorem run_eq_pair (rule : Rule α) (ts : List Lexeme) : rule.run ts = pair (rule ts) := rfl

/-- What a rule leaves is shorter than what it was given. -/
theorem length_lt_of_run {rule : Rule α} {ts rest : List Lexeme} {a : α}
    (h : rule.run ts = .ok (a, rest)) : rest.length < ts.length := by
  unfold run at h
  obtain ⟨p, -, hp⟩ := Outcome.map_eq_ok.mp h
  cases hp
  exact p.shorter

/-- What is made of something that is read depends on it as a pair. -/
theorem bind_pair {r : Except GrammarFault (Parsed β m)} {f : Parsed β m → Except GrammarFault α}
    (g : β × List Lexeme → Except GrammarFault α) (h : ∀ p, f p = g (p.value, p.rest)) :
    r >>= f = pair r >>= g := by
  cases r with
  | ok p => exact h p
  | error e => rfl

/-- What is read after something else, from the pair that the first gives. -/
theorem pair_bind {r : Except GrammarFault (Parsed β m)}
    {f : Parsed β m → Except GrammarFault (Parsed α n)}
    (g : β × List Lexeme → Except GrammarFault (α × List Lexeme))
    (h : ∀ p, pair (f p) = g (p.value, p.rest)) : pair (r >>= f) = pair r >>= g := by
  cases r with
  | ok p => exact h p
  | error e => rfl

/-- A weaker bound does not change what is read. -/
theorem pair_widen (r : Except GrammarFault (Parsed α m)) (h : m ≤ n) :
    pair (r >>= fun p => pure (p.widen h)) = pair r := by
  cases r <;> rfl

/-- A rule reads, with some room, the constructs of a spelling in front of what may follow them. -/
def Reads (limit room : Nat) (item : Spelling α) (free : List Lexeme → List Lexeme → Prop)
    (rule : Rule α) : Prop :=
  ∀ {k p a rest}, item k p a → free p rest → Within limit k room (rule.run (p ++ rest)) (a, rest)

/-- A rule reads, with some room, nothing but constructs of a spelling in front of what may follow
them. -/
def Sound (room : Nat) (item : Spelling α) (free : List Lexeme → List Lexeme → Prop)
    (rule : Rule α) : Prop :=
  ∀ {ts a rest}, rule.run ts = .ok (a, rest) →
    ∃ k p, k ≤ room ∧ ts = p ++ rest ∧ item k p a ∧ free p rest

end Rule

end HandTemplate
