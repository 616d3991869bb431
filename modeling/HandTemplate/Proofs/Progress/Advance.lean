import HandTemplate.Proofs.Finality.Program
import HandTemplate.Proofs.Progress.Loops

/-!
# Rules leave less than they are given

Whatever a rule reads, it reads from the front: what it leaves is the end of what it was given, and
shorter by one lexeme at least.
-/

namespace HandTemplate

namespace Rule

variable {α : Type}

/-- A rule that reads something leaves a proper part of what it was given. -/
def Advances (rule : Rule α) : Prop :=
  ∀ {ts value rest}, rule.run ts = .ok (value, rest) → ProperSuffix rest ts

/-- A rule that is decided by what comes next leaves the end of what it was given. -/
theorem Continuing.advances {rule : Rule α} (h : ∀ W, Continuing W [] rule) : rule.Advances := by
  intro ts value rest hrun
  have hread := (h ts ts List.suffix_rfl).prolonged
  rw [hrun] at hread
  refine .of_length ?_ (length_lt_of_run hrun)
  generalize rule.run (ts ++ []) = r at hread
  cases hread with
  | ok hsuffix => exact hsuffix
  | undecided hr => cases hr with | ok _ hsuffix => exact hsuffix

/-- What is left without newlines is the end of what was there. -/
theorem dropNewlines_suffix (ts : List Lexeme) : dropNewlines ts <:+ ts := List.dropWhile_suffix _

/-- A series advances if its items do. -/
theorem series_advances {item : Rule α} (hitem : item.Advances) (d : Delimiter)
    (opened : Position) : Advances (series item d opened) := by
  intro ts values rest h
  -- By induction on the number of lexemes, which every item with its comma makes smaller.
  induction hlength : ts.length using Nat.strongRecOn generalizing ts values with
  | ind n ih =>
  subst hlength
  have hts := dropNewlines_suffix ts
  rw [series_run] at h
  split at h
  · cases h
  next t after heq =>
  rw [heq] at hts
  split at h
  · cases h
    exact .of_cons hts
  -- An item is read first; it leaves a proper part, and so does a comma or the closing mark.
  obtain ⟨⟨value, left⟩, hfirst, h⟩ := Outcome.bind_eq_ok.mp h
  have hleft : ProperSuffix left ts := (hitem hfirst).trans_suffix hts
  have hnext := dropNewlines_suffix left
  dsimp only at h
  split at h
  · cases h
  next u after' heq' =>
  rw [heq'] at hnext
  have hafter : ProperSuffix after' ts := (ProperSuffix.of_cons hnext).trans_suffix hleft.1
  split at h
  · obtain ⟨⟨others, left'⟩, hothers, h⟩ := Outcome.bind_eq_ok.mp h
    cases h
    exact (ih _ hafter.length_lt hothers rfl).trans_suffix hafter.1
  split at h
  · cases h
    exact hafter
  · cases h

end Rule

open Rule

namespace Expr

variable {W more : List Lexeme}

/-- A factor is decided by the lexemes up to its end. -/
theorem factor_continues (limit room : Nat) : Continuing W more (factor limit room) := by
  rw [factor_eq]
  exact operand_continues fun n _ => parse_continues limit n

/-- A product is decided by the lexemes up to its end. -/
theorem product_continues (limit room : Nat) : Continuing W more (product limit room) := by
  unfold product
  exact chain_continues fun m _ => factor_continues limit m

/-- The rule for expressions leaves a proper part of what it was given. -/
theorem parse_advances (limit room : Nat) : (parse limit room).Advances :=
  Continuing.advances fun _ => parse_continues limit room

/-- The rule for products leaves a proper part of what it was given. -/
theorem product_advances (limit room : Nat) : (product limit room).Advances :=
  Continuing.advances fun _ => product_continues limit room

/-- The rule for factors leaves a proper part of what it was given. -/
theorem factor_advances (limit room : Nat) : (factor limit room).Advances :=
  Continuing.advances fun _ => factor_continues limit room

/-- The rule for atoms leaves a proper part of what it was given. -/
theorem atom_advances (limit room : Nat) : (atom limit (nested limit room)).Advances :=
  Continuing.advances fun _ => atom_continues fun n _ => parse_continues limit n

end Expr

/-- The rule for statements leaves a proper part of what it was given. -/
theorem Statement.parse_advances (limit room : Nat) : (Statement.parse limit room).Advances :=
  Continuing.advances fun _ => parse_continues limit room

/-- The rule for bodies leaves a proper part of what it was given. -/
theorem Statement.body_advances (limit room : Nat) (expected : String) :
    Advances (Statement.body (Statement.parse limit room) expected) :=
  Continuing.advances fun _ => body_continues (parse_continues limit room) expected

/-- The rule for single values leaves a proper part of what it was given. -/
theorem Datum.single_advances : Datum.single.Advances :=
  Continuing.advances fun _ => single_continues

/-- The rule for entries leaves a proper part of what it was given. -/
theorem Metadata.entry_advances : Metadata.entry.Advances :=
  Continuing.advances fun _ => entry_continues

/-- The rule for the metadata leaves a proper part of what it was given. -/
theorem Metadata.parse_advances : Metadata.parse.Advances :=
  Continuing.advances fun _ => parse_continues

/-- The rule for the variations leaves a proper part of what it was given. -/
theorem Program.variations_advances (limit : Nat) : (Program.variations limit).Advances :=
  Continuing.advances fun _ => variations_continues limit

/-- The rule for names leaves a proper part of what it was given. -/
theorem Rule.name_advances : Rule.name.Advances :=
  Continuing.advances fun _ => Statement.name_continues

end HandTemplate
