import HandTemplate.Proofs.Lexemes.Lines
import HandTemplate.Proofs.Lexemes.Scanning

/-!
# A text and its lexemes

A text has lexemes exactly when it splits into longest stretches to its end, and the lexemes are
then those of the stretches; it has a fault exactly when it so splits up to the place of the fault,
and what stands there is rejected for the cause of the fault (`tokenize_splits`). Each of the two
follows by induction, the first along the scans of the text and the second along its stretches.
-/

namespace HandTemplate

namespace Lexer

variable {p q : Position} {text rest : List Char} {lexemes : List Lexeme}

/-- The lexemes of a text after its first stretch, which has the given outcome. -/
theorem tokenizeFrom_longest {stretch after : List Char} {token? : Option Token}
    (h : Longest stretch after (.ok token?)) (p : Position) :
    tokenizeFrom p (stretch ++ after) =
      (tokenizeFrom (p.advance stretch) after).map
        ((token?.map (⟨·, p⟩)).toList ++ ·) := by
  obtain ⟨c, cs, htext⟩ := List.exists_cons_of_ne_nil
    (List.append_ne_nil_of_left_ne_nil h.form.ne_nil after)
  have hscan : scan c cs = ⟨stretch, after, .ok token?⟩ := h.scan_eq htext
  rw [htext, tokenizeFrom, hscan]
  rfl

/-- Where a text is rejected, it has the fault of that cause. -/
theorem tokenizeFrom_rejected {cause : LexicalFault.Cause} (h : Rejected text cause)
    (p : Position) : tokenizeFrom p text = .error ⟨cause, p⟩ := by
  cases text with
  | nil =>
    generalize htext : ([] : List Char) = text at h
    cases h with
    | unclosed | strange => cases htext
    | huge hstretch =>
      exact absurd (List.append_eq_nil_iff.1 htext.symm).1 hstretch.form.ne_nil
  | cons c cs => rw [tokenizeFrom, rejected_iff_scan.1 h]

/-- A text that splits has the lexemes of its stretches, and after them those of its rest. -/
theorem Splits.tokenizeFrom_eq (h : Splits p text lexemes q rest) :
    tokenizeFrom p text = (tokenizeFrom q rest).map (lexemes ++ ·) := by
  induction h with
  | done p text => cases h : tokenizeFrom p text <;> rfl
  | @skip p q stretch after rest lexemes hstretch hafter ih =>
    rw [tokenizeFrom_longest hstretch, ih]
    cases tokenizeFrom q rest <;> rfl
  | @lexeme p q stretch after rest lexemes token hstretch hafter ih =>
    rw [tokenizeFrom_longest hstretch, ih]
    cases tokenizeFrom q rest <;> rfl

/-- Before a text that splits, a longest stretch splits off. -/
theorem Splits.prepend {stretch after : List Char} {token? : Option Token}
    (hstretch : Longest stretch after (.ok token?))
    (hafter : Splits (p.advance stretch) after lexemes q rest) :
    Splits p (stretch ++ after) ((token?.map (⟨·, p⟩)).toList ++ lexemes) q rest := by
  cases token? with
  | none => exact .skip hstretch hafter
  | some token => exact .lexeme hstretch hafter

/-- A text splits as far as it is scanned, to its end or to its fault. -/
theorem exists_splits (p : Position) (text : List Char) :
    match tokenizeFrom p text with
    | .ok lexemes => ∃ q, Splits p text lexemes q []
    | .error e =>
      ∃ lexemes rest, Splits p text lexemes e.position rest ∧ Rejected rest e.cause := by
  -- By the recursion of the scanner; a stretch that is scanned splits off in front of the rest.
  fun_induction tokenizeFrom p text with
  | case1 p => exact ⟨p, .done p []⟩
  | case2 p c cs cause hcause => exact ⟨[], c :: cs, .done _ _, rejected_iff_scan.2 hcause⟩
  | case3 p c cs token? hscan ih =>
    have hlongest : Longest (scan c cs).lexeme (scan c cs).rest (.ok token?) := by
      have hform : Form (scan c cs).lexeme (scan c cs).outcome := by
        rcases scan_form c cs with hform | ⟨hopen, -⟩ | ⟨hstrange, -⟩
        · exact hform
        · cases hscan.symm.trans hopen
        · rw [hstrange] at hscan
          cases hscan
      exact hscan ▸ longest_scan hform
    rw [← lexeme_append_rest c cs]
    cases hlater : tokenizeFrom (p.advance (scan c cs).lexeme) (scan c cs).rest with
    | ok later =>
      rw [hlater] at ih
      obtain ⟨q, hsplits⟩ := ih
      exact ⟨q, hsplits.prepend hlongest⟩
    | error e =>
      rw [hlater] at ih
      obtain ⟨later, rest, hsplits, hrejected⟩ := ih
      exact ⟨_, rest, hsplits.prepend hlongest, hrejected⟩

/-- A reserved token has one word. -/
theorem Reserved.word_eq {word word' : String} {token : Token} (h : Reserved word token)
    (h' : Reserved word' token) : word = word' := by
  cases h <;> cases h' <;> rfl

/-- A name is a reserved token exactly if it is that token's word but for the case of ASCII. -/
theorem Name.form_reserved_iff (hname : Name text) {word : String} {token : Token}
    (hword : Reserved word token) :
    Form text (.ok (some token)) ↔ text.map Char.toLower = word.toList := by
  rw [← hname.map_foldCase]
  constructor
  · intro h
    cases h with
    | reserved hword' hcase => rw [hcase, hword'.word_eq hword]
    | newline | mark | integer | range | real | name | text | tile => cases hword
  · exact .reserved hword

end Lexer

open Lexer

/-- A text that has lexemes splits into them to its end. -/
theorem splits_of_tokenize {source : String} {lexemes : List Lexeme}
    (h : tokenize source = .ok lexemes) : ∃ q, Splits .start source.toList lexemes q [] := by
  have hsplits := exists_splits .start source.toList
  rw [tokenize_eq] at h
  rwa [h] at hsplits

/-- A text that has a fault splits up to the fault. -/
theorem rejected_of_tokenize {source : String} {e : LexicalFault}
    (h : tokenize source = .error e) :
    ∃ lexemes rest, Splits .start source.toList lexemes e.position rest ∧
      Rejected rest e.cause := by
  have hsplits := exists_splits .start source.toList
  rw [tokenize_eq] at h
  rwa [h] at hsplits

/-- A text has the given lexemes exactly if it splits to its end into stretches, each the longest
of its place that has a form, with these lexemes. It has the given fault exactly if it so splits up
to the place of the fault and what stands there is rejected for that cause. A name among the
stretches is a reserved token exactly if it is that token's word but for the case of ASCII. -/
theorem tokenize_splits (source : String) :
    (∀ lexemes, tokenize source = .ok lexemes ↔
      ∃ q, Splits .start source.toList lexemes q []) ∧
    (∀ e, tokenize source = .error e ↔
      ∃ lexemes rest, Splits .start source.toList lexemes e.position rest ∧
        Rejected rest e.cause) ∧
    ∀ text, Name text → ∀ word token, Reserved word token →
      (Form text (.ok (some token)) ↔ text.map Char.toLower = word.toList) := by
  refine ⟨fun lexemes => ⟨splits_of_tokenize, fun ⟨q, h⟩ => ?_⟩,
    fun e => ⟨rejected_of_tokenize, ?_⟩,
    fun text hname word token hword => hname.form_reserved_iff hword⟩
  · rw [tokenize_eq, h.tokenizeFrom_eq, tokenizeFrom]
    simp [Except.map]
  · rintro ⟨lexemes, rest, h, hrejected⟩
    rw [tokenize_eq, h.tokenizeFrom_eq, tokenizeFrom_rejected hrejected]
    rfl

example : tokenize "in-1 1..9 IN" =
    .ok [⟨.identifier "in-1", ⟨1, 1⟩⟩, ⟨.range 1 9, ⟨1, 6⟩⟩, ⟨.keyword .within, ⟨1, 11⟩⟩] := by
  cbv

end HandTemplate
