import HandTemplate.Proofs.Lexemes.Segmentation

/-!
# The places of lexemes

The position of a lexeme or of a fault can be counted in the text before it (`tokenize_positions`).
The lexemes of a text stand one after the other, so that no two of them share a position, and what
stands at a position is one token (`tokenAt?_of_mem`).
-/

namespace HandTemplate

/-- A position comes before another one, on an earlier line or further left on the same. -/
def Position.Before (p q : Position) : Prop :=
  p.line < q.line ∨ p.line = q.line ∧ p.column < q.column

namespace Position

/-- A position before another one is before all that this one is before. -/
theorem Before.trans {p q r : Position} (h : p.Before q) (h' : q.Before r) : p.Before r := by
  unfold Before at *
  omega

/-- No position comes before itself. -/
theorem Before.ne {p q : Position} (h : p.Before q) : p ≠ q := by
  rintro rfl
  unfold Before at h
  omega

/-- A character takes its place and leaves the ones after it to others. -/
theorem before_next (p : Position) (c : Char) : p.Before (p.next c) := by
  unfold next
  split
  · exact .inl (Nat.lt_succ_self _)
  · exact .inr ⟨rfl, Nat.lt_succ_self _⟩

/-- So do any characters. -/
theorem before_advance (p : Position) {cs : List Char} (hcs : cs ≠ []) :
    p.Before (p.advance cs) := by
  induction cs generalizing p with
  | nil => exact absurd rfl hcs
  | cons c cs ih =>
    rw [advance_cons]
    by_cases hne : cs = []
    · subst hne
      exact before_next p c
    · exact (before_next p c).trans (ih _ hne)

end Position

/-- The token that stands at a position. -/
def tokenAt? (lexemes : List Lexeme) (p : Position) : Option Token :=
  (lexemes.find? (·.position = p)).map Lexeme.token

namespace Lexer

/-- A text splits up to each of its lexemes, and there the stretch of that lexeme begins. -/
theorem Splits.upTo {p q : Position} {text rest : List Char} {lexemes earlier later : List Lexeme}
    {t : Lexeme} (h : Splits p text lexemes q rest) (ht : lexemes = earlier ++ t :: later) :
    ∃ stretch after, Splits p text earlier t.position (stretch ++ after) ∧
      Longest stretch after (.ok (some t.token)) := by
  -- By induction on the split: the lexeme is the next one, or one of the later ones.
  induction h generalizing earlier with
  | done => simp at ht
  | @skip p q stretch after rest lexemes hstretch _ ih =>
    obtain ⟨next, others, hsplits, hlongest⟩ := ih ht
    exact ⟨next, others, .skip hstretch hsplits, hlongest⟩
  | @lexeme p q stretch after rest lexemes token hstretch _ ih =>
    cases earlier with
    | nil =>
      obtain ⟨rfl, -⟩ := List.cons.inj ht
      exact ⟨stretch, after, .done p _, hstretch⟩
    | cons s earlier =>
      obtain ⟨rfl, hlater⟩ := List.cons.inj ht
      obtain ⟨next, others, hsplits, hlongest⟩ := ih hlater
      exact ⟨next, others, .lexeme hstretch hsplits, hlongest⟩

/-- Where a text that is split from its start ends, there its stretches lead by counting. -/
theorem Splits.position_eq {q : Position} {text rest : List Char} {lexemes : List Lexeme}
    (h : Splits .start text lexemes q rest) :
    ∃ before, text = before ++ rest ∧ q = Position.after before := by
  obtain ⟨before, htext, hq⟩ := h.eq_append
  exact ⟨before, htext, hq.trans (Position.advance_start before)⟩

/-- No lexeme of a text stands before the text, and each stands before the ones after it. -/
theorem Splits.before {p q : Position} {text rest : List Char} {lexemes : List Lexeme}
    (h : Splits p text lexemes q rest) :
    (∀ t ∈ lexemes, p = t.position ∨ p.Before t.position) ∧
      lexemes.Pairwise fun s t => s.position.Before t.position := by
  -- By induction on the split, where no stretch is empty and so each leads to a later position.
  induction h with
  | done => exact ⟨fun t ht => (nomatch ht), .nil⟩
  | @skip p q stretch after rest lexemes hstretch _ ih =>
    have hstart := p.before_advance hstretch.form.ne_nil
    refine ⟨fun t ht => ?_, ih.2⟩
    rcases ih.1 t ht with heq | hbefore
    · exact .inr (heq ▸ hstart)
    · exact .inr (hstart.trans hbefore)
  | @lexeme p q stretch after rest lexemes token hstretch _ ih =>
    have hstart := p.before_advance hstretch.form.ne_nil
    have hlater : ∀ t ∈ lexemes, p.Before t.position := by
      intro t ht
      rcases ih.1 t ht with heq | hbefore
      · exact heq ▸ hstart
      · exact hstart.trans hbefore
    exact ⟨List.forall_mem_cons.2 ⟨.inl rfl, fun t ht => .inr (hlater t ht)⟩,
      List.pairwise_cons.2 ⟨hlater, ih.2⟩⟩

end Lexer

/-- A lexeme of a text is the only one at its position. -/
theorem tokenAt?_of_mem {source : String} {lexemes : List Lexeme}
    (h : tokenize source = .ok lexemes) {token : Token} {p : Position}
    (ht : ⟨token, p⟩ ∈ lexemes) : tokenAt? lexemes p = some token := by
  obtain ⟨q, hsplits⟩ := splits_of_tokenize h
  have hordered := hsplits.before.2
  clear h hsplits
  unfold tokenAt?
  -- The search passes the earlier lexemes, whose positions are others.
  induction lexemes with
  | nil => cases ht
  | cons s lexemes ih =>
    obtain ⟨hfirst, hlater⟩ := List.pairwise_cons.1 hordered
    rw [List.find?_cons]
    rcases List.mem_cons.1 ht with rfl | ht
    · simp
    · have hne : s.position ≠ p := (hfirst _ ht).ne
      simpa [hne] using ih ht hlater

open Lexer in
/-- Each lexeme of a text, and the fault if it has one, is at the position that is counted in the
text before its first character, which is where the text splits up to it; and of the lexemes of a
text, each is at an earlier position than those after it. -/
theorem tokenize_positions (source : String) :
    (∀ lexemes, tokenize source = .ok lexemes →
      (∀ earlier t later, lexemes = earlier ++ t :: later →
        ∃ before stretch after, source.toList = before ++ (stretch ++ after) ∧
          Splits .start source.toList earlier t.position (stretch ++ after) ∧
          Longest stretch after (.ok (some t.token)) ∧ t.position = Position.after before) ∧
      lexemes.Pairwise fun s t => s.position.Before t.position) ∧
    ∀ e, tokenize source = .error e →
      ∃ earlier before rest, source.toList = before ++ rest ∧
        Splits .start source.toList earlier e.position rest ∧ Rejected rest e.cause ∧
        e.position = Position.after before := by
  refine ⟨fun lexemes h => ?_, fun e h => ?_⟩
  · obtain ⟨q, hsplits⟩ := splits_of_tokenize h
    refine ⟨fun earlier t later ht => ?_, hsplits.before.2⟩
    obtain ⟨stretch, after, hupTo, hlongest⟩ := hsplits.upTo ht
    obtain ⟨before, htext, hposition⟩ := hupTo.position_eq
    exact ⟨before, stretch, after, htext, hupTo, hlongest, hposition⟩
  · obtain ⟨earlier, rest, hsplits, hrejected⟩ := rejected_of_tokenize h
    obtain ⟨before, htext, hposition⟩ := hsplits.position_eq
    exact ⟨earlier, before, rest, htext, hsplits, hrejected, hposition⟩

open Lexer in
/-- A line ends within quotes, and characters of several bytes stand there and in a comment. In
another text a character that begins no token stands after such quotes. -/
theorem tokenize_positions_lines :
    let source := "'é\nñ' x // ß\n\"\""
    let lexemes : List Lexeme :=
      [⟨.tile "é\nñ", ⟨1, 1⟩⟩, ⟨.identifier "x", ⟨2, 4⟩⟩, ⟨.newline, ⟨2, 10⟩⟩, ⟨.text "", ⟨3, 1⟩⟩]
    let e : LexicalFault := ⟨.strangeCharacter 'ñ', ⟨2, 3⟩⟩
    tokenize source = .ok lexemes ∧
      (∃ before stretch after, source.toList = before ++ (stretch ++ after) ∧
        Longest stretch after (.ok (some (.identifier "x"))) ∧ ⟨2, 4⟩ = Position.after before) ∧
      (lexemes.Pairwise fun s t => s.position.Before t.position) ∧
      tokenize "'é\n' ñ" = .error e ∧
      ∃ before rest, "'é\n' ñ".toList = before ++ rest ∧ Rejected rest (.strangeCharacter 'ñ') ∧
        ⟨2, 3⟩ = Position.after before := by
  intro source lexemes e
  have hlexemes : tokenize source = .ok lexemes := by cbv
  have herror : tokenize "'é\n' ñ" = .error e := by cbv
  obtain ⟨hplaces, hordered⟩ := (tokenize_positions source).1 lexemes hlexemes
  obtain ⟨before, stretch, after, htext, -, hlongest, hposition⟩ := hplaces [_] _ [_, _] rfl
  obtain ⟨-, passed, rest, herrorText, -, hrejected, herrorPosition⟩ :=
    (tokenize_positions _).2 e herror
  exact ⟨hlexemes, ⟨before, stretch, after, htext, hlongest, hposition⟩, hordered, herror,
    passed, rest, herrorText, hrejected, herrorPosition⟩

end HandTemplate
