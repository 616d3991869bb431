import HandTemplate.Proofs.Progress.Advance
import HandTemplate.Proofs.Progress.Looping

/-!
# Turns of loops leave less than they are given

A turn after which a loop goes on has read an item, an operator with its operand, an index or a name
with the comma before it, so that it leaves a proper part of what it was given if the rules for
these do.
-/

namespace HandTemplate

namespace Looping

open Grammar (mark_or_not)
open Rule (dropSeparators isSeparator)
open Running (ended)

variable {α : Type} {limit room : Nat}

/-- A rule made of loops that reads something leaves a proper part of what it was given. -/
def Advances (reading : Looping α) : Prop :=
  ∀ {ts value rest}, reading ts = ended (.ok (value, rest)) → ProperSuffix rest ts

/-- A mark is taken where it comes first. -/
theorem eat?_mark (m : Mark) (p : Position) (ts : List Lexeme) :
    eat? m (⟨.mark m, p⟩ :: ts) = some (p, ts) :=
  if_pos rfl

/-- A mark is not taken where another token comes first. -/
theorem eat?_eq_none {m : Mark} {ts : List Lexeme} (h : ∀ t ∈ ts.head?, t.token ≠ .mark m) :
    eat? m ts = none := by
  cases ts with
  | nil => rfl
  | cons t ts => exact if_neg (h t rfl)

/-- What is read one level deeper is there. -/
theorem oneDeeper_eq_ok {inner : Option α} {p : Position} {a : α}
    (h : Expr.oneDeeper limit inner p = .ok a) : inner = some a := by
  cases inner with
  | none => cases h
  | some a' =>
    cases h
    rfl

section
variable {item : Looping α} (hitem : item.Advances)
include hitem

/-- A turn of the loop for a series leaves less if an item does. -/
theorem seriesTurn_shortens (d : Delimiter) (opened : Position) :
    Shortens (seriesTurn item d opened) := by
  intro values ts next rest h
  have hts := Rule.dropNewlines_suffix ts
  unfold seriesTurn at h
  split at h
  · cases h
  next t after heq =>
  rw [heq] at hts
  split at h
  · cases h
  -- A turn goes on only behind an item and a comma, both of which take something.
  obtain ⟨⟨value, left⟩, hfirst, h⟩ := Running.bind_eq_ok.mp h
  have hleft : ProperSuffix left ts := (hitem hfirst).trans_suffix hts
  have hnext := Rule.dropNewlines_suffix left
  dsimp only at h
  split at h
  · cases h
  next u after' heq' =>
  rw [heq'] at hnext
  split at h
  · cases h
    exact (ProperSuffix.of_cons hnext).trans_suffix hleft.1
  split at h <;> cases h

/-- A turn of the loop for items leaves less if an item does. -/
theorem itemsTurn_shortens (separates : Token → Bool) (d : Delimiter) (opened : Position) :
    Shortens (itemsTurn item separates d opened) := by
  intro values ts next rest h
  have hts := List.dropWhile_suffix (l := ts) (separates ·.token)
  unfold itemsTurn at h
  split at h
  · cases h
  next t after heq =>
  rw [heq] at hts
  split at h
  · cases h
  obtain ⟨⟨value, left⟩, hfirst, h⟩ := Running.bind_eq_ok.mp h
  cases h
  exact (hitem hfirst).trans_suffix hts

end

/-- A turn of the loop for statements after a colon leaves less if a statement does. -/
theorem openTurn_shortens {statement : Looping Statement} (hstatement : statement.Advances) :
    Shortens (openTurn statement) := by
  intro statements ts next rest h
  have hts := List.dropWhile_suffix (l := ts) (isSeparator ·.token)
  unfold openTurn dropSeparators at h
  split at h
  · cases h
  next t after heq =>
  rw [heq] at hts
  split at h
  · split at h <;> cases h
  split at h
  · cases h
  obtain ⟨⟨value, left⟩, hfirst, h⟩ := Running.bind_eq_ok.mp h
  cases h
  exact (hstatement hfirst).trans_suffix hts

/-- A turn of the loop for names leaves less. -/
theorem namesTurn_shortens : Shortens namesTurn := by
  intro names ts next rest h
  unfold namesTurn at h
  rcases mark_or_not .comma ts with ⟨p, after, rfl⟩ | hhead
  · rw [eat?_mark] at h
    obtain ⟨⟨other, left⟩, hother, h⟩ := Running.bind_eq_ok.mp h
    cases h
    exact (Rule.name_advances (Running.ended_inj.mp hother)).trans_suffix (List.suffix_cons _ _)
  · rw [eat?_eq_none hhead] at h
    cases h

/-- A turn of the loop for a chain leaves less if an operand does. -/
theorem chainTurn_shortens {operator : Operator} {mark : Mark}
    {item : (m : Nat) → m ≤ room → Looping Expr} (hitem : ∀ m h, (item m h).Advances) :
    Shortens (chainTurn limit operator mark item) := by
  rintro ⟨left, m, hm⟩ ts next rest h
  unfold chainTurn at h
  rcases mark_or_not mark ts with ⟨p, after, rfl⟩ | hhead
  · rw [eat?_mark] at h
    cases m with
    | zero => cases h
    | succ m =>
      obtain ⟨⟨right, left⟩, hright, h⟩ := Running.bind_eq_ok.mp h
      cases h
      exact (hitem _ _ hright).trans_suffix (List.suffix_cons _ _)
  · rw [eat?_eq_none hhead] at h
    cases h

/-- A turn of the loop for indices leaves less if what stands in an index does. -/
theorem indexTurn_shortens {inner : Option (Looping Expr)}
    (hinner : ∀ rule, inner = some rule → rule.Advances) : Shortens (indexTurn limit inner) := by
  intro target ts next rest h
  unfold indexTurn at h
  rcases mark_or_not .leftBracket ts with ⟨opened, after, rfl⟩ | hhead
  · rw [eat?_mark] at h
    obtain ⟨rule, hrule, h⟩ := Running.bind_eq_ok.mp h
    obtain ⟨⟨place, left⟩, hplace, h⟩ := Running.bind_eq_ok.mp h
    -- The expression leaves a proper part of what follows the bracket.
    have hadvances : rule.Advances := hinner rule (oneDeeper_eq_ok (Running.ended_inj.mp hrule))
    have hleft : ProperSuffix left (⟨.mark .leftBracket, opened⟩ :: after) :=
      (hadvances hplace).trans_suffix
        ((Rule.dropNewlines_suffix after).trans (List.suffix_cons _ _))
    have hnext := Rule.dropNewlines_suffix left
    dsimp only at h
    split at h
    · cases h
    next t after' heq =>
    rw [heq] at hnext
    split at h
    · cases h
      exact (ProperSuffix.of_cons hnext).trans_suffix hleft.1
    · cases h
  · rw [eat?_eq_none hhead] at h
    cases h

end Looping

end HandTemplate
