import HandTemplate.Proofs.Lexemes.Scanning
import HandTemplate.Proofs.Outcome

/-!
# Writing tokens down

Tokens are written one after the other, each in any of its forms, with blanks between them and
comments at the ends of lines. Neither a form that stands for a token nor a longer one reaches over
a blank or into a comment, so a text in which tokens are written has these tokens and no others.
Main statement: `tokenize_written`.
-/

namespace HandTemplate

namespace Lexer

/-- The characters that may separate tokens on a line. -/
def blanks : List Char := [' ', '\t', '\r', '\x0c']

/-- The characters that may follow a token: blanks, and the slash that begins a comment. -/
def separators : List Char := '/' :: blanks

/-- `Gap ending text`: before a token, or at the end of a text, stands `text`. It has blanks, and if
a line or the text ends there it may have a comment. -/
inductive Gap (ending : Prop) : List Char → Prop where
  | blanks {text : List Char} (htext : ∀ c ∈ text, c ∈ blanks) : Gap ending text
  | comment {before text after : List Char} (hending : ending)
      (hbefore : ∀ c ∈ before, c ∈ Lexer.blanks) (htext : ∀ c ∈ text, c ≠ '\n' ∧ c ≠ '\r')
      (hafter : ∀ c ∈ after, c ∈ Lexer.blanks) :
      Gap ending (before ++ '/' :: '/' :: (text ++ after))

/-- `Written ts text`: the tokens `ts` are written in `text`, each in a form that stands for it, and
what follows each of them is set apart from it. -/
inductive Written : List Token → List Char → Prop where
  | nil {gap : List Char} (hgap : Gap True gap) : Written [] gap
  | cons {t : Token} {ts : List Token} {gap text rest : List Char} (hgap : Gap (t = .newline) gap)
      (hform : Form text (.ok (some t))) (hapart : ∀ c, rest.head? = some c → c ∈ separators)
      (hrest : Written ts rest) : Written (t :: ts) (gap ++ (text ++ rest))

/-! ## How far forms reach -/

/-- The characters that stand in no token outside quotes, but for the end of a line. -/
def delimiters : List Char := '"' :: '\'' :: separators

variable {c : Char} {text cs rest : List Char} {outcome : Outcome} {t : Token} {ts : List Token}

/-- A form has no delimiters, unless it is made of spaces or a comment, or stands in quotes. -/
theorem Form.kind (h : Form text outcome) :
    (∀ c ∈ text, c ∉ delimiters) ∨
      (outcome = .ok none ∧ ∃ c ∈ separators, text.head? = some c) ∨
        ∃ quote inside content, (quote = '"' ∨ quote = '\'') ∧ Quoted quote inside content ∧
          text = quote :: (inside ++ [quote]) := by
  have hdigits : ∀ {digits : List Char}, Digits digits → ∀ c ∈ digits, c ∉ delimiters :=
    fun hdigits c hc => not_mem_of_all (p := Char.isDigit) (by decide) (hdigits.2 c hc)
  have hpoint : '.' ∉ delimiters := by decide
  -- Digits, points and letters are no delimiters; spaces, comments and quotes are the exceptions.
  cases h with
  | newline => exact .inl (by simp [delimiters, separators, blanks])
  | mark m => exact .inl (by cases m <;> simp [Mark.char, delimiters, separators, blanks])
  | spaces hne hspaces =>
    obtain ⟨c, cs, rfl⟩ := List.exists_cons_of_ne_nil hne
    exact .inr (.inl ⟨rfl, c, List.mem_cons_of_mem _ (hspaces c (List.mem_cons_self ..)), rfl⟩)
  | comment => exact .inr (.inl ⟨rfl, '/', List.mem_cons_self .., rfl⟩)
  | integer h | hugeInteger h => exact .inl (hdigits h)
  | range hlower hupper | hugeRange hlower hupper =>
    exact .inl (List.forall_mem_append.2 ⟨hdigits hlower,
      List.forall_mem_cons.2 ⟨hpoint, List.forall_mem_cons.2 ⟨hpoint, hdigits hupper⟩⟩⟩)
  | real hwhole hfraction =>
    exact .inl (List.forall_mem_append.2 ⟨hdigits hwhole,
      List.forall_mem_cons.2 ⟨hpoint, hdigits hfraction⟩⟩)
  | @reserved word token _ hword hcase =>
    -- No letter of a reserved word is a delimiter in another case.
    have hletters : reservedWords.all fun entry =>
        delimiters.all fun d => !entry.1.toList.contains (foldCase d) := by decide
    have hletters := List.all_eq_true.1 hletters _ (reserved_iff_mem.1 hword)
    refine .inl fun c hc => not_mem_of_all (p := fun d => word.toList.contains (foldCase d))
      hletters ?_
    rw [List.contains_iff_mem, ← hcase]
    exact List.mem_map_of_mem hc
  | name hname =>
    exact .inl fun c hc => not_mem_of_all (p := isNamePart) (by decide) (hname.parts c hc)
  | text hquoted => exact .inr (.inr ⟨'"', _, _, .inl rfl, hquoted, rfl⟩)
  | tile hquoted => exact .inr (.inr ⟨'\'', _, _, .inr rfl, hquoted, rfl⟩)

/-- A form that stands for a token does not begin with a separator. -/
theorem Form.head_not_separator (h : Form (c :: cs) (.ok (some t))) : c ∉ separators := by
  rcases h.kind with hplain | ⟨hnone, -⟩ | ⟨quote, _, _, hquote, -, heq⟩
  · intro hmem
    exact hplain c (List.mem_cons_self ..) (List.mem_cons_of_mem _ (List.mem_cons_of_mem _ hmem))
  · cases hnone
  · cases heq
    rcases hquote with rfl | rfl <;> decide

/-- What stands in quotes ends with them, so that nothing longer with the same beginning stands in
the same quotes. -/
theorem Quoted.ne_longer {quote d : Char} {inside longer ds content content' : List Char}
    (hquote : quote ≠ '\\') (h : Quoted quote inside content)
    (hlonger : Quoted quote longer content') : inside ++ quote :: d :: ds ≠ longer ++ [quote] := by
  intro hsame
  have hshort := (h.closing? hquote (d :: ds)).1
  have hlong := (hlonger.closing? hquote []).1
  rw [hsame, hlong] at hshort
  cases (Prod.mk.inj (Option.some.inj hshort)).2

/-- Where a token is set apart from what follows it, no form reaches further than the form of the
token. -/
theorem Form.longest_token (h : Form text (.ok (some t)))
    (hapart : ∀ c, rest.head? = some c → c ∈ separators) :
    Longest text rest (.ok (some t)) := by
  refine ⟨h, fun other outcome hother hbegins => ?_⟩
  by_contra hlonger
  -- A longer form begins as the token does, and has the separator after it.
  obtain ⟨more, rfl⟩ : text <+: other :=
    List.prefix_of_prefix_length_le (List.prefix_append ..) hbegins (by omega)
  obtain ⟨c, cs, rfl⟩ := List.exists_cons_of_ne_nil h.ne_nil
  obtain ⟨d, ds, rfl⟩ := List.exists_cons_of_ne_nil (l := more) (by
    rintro rfl
    simp at hlonger)
  obtain ⟨after, hafter⟩ := (List.prefix_append_right_inj (c :: cs)).1 hbegins
  have hd : d ∈ separators := hapart d (by rw [← hafter]; rfl)
  -- A form with no delimiters cannot contain the separator, one of spaces or a comment cannot begin
  -- like a token, and one in quotes cannot be longer than another in the same quotes.
  rcases hother.kind with hplain | ⟨-, c', hc', hhead⟩ | ⟨quote, inside, _, hquote, hinside, heq⟩
  · have hmem : d ∈ c :: cs ++ d :: ds := by simp
    exact hplain d hmem (List.mem_cons_of_mem _ (List.mem_cons_of_mem _ hd))
  · cases hhead
    exact h.head_not_separator hc'
  · -- Both stand in the same quotes.
    obtain ⟨rfl, heq⟩ := List.cons_eq_cons.1 heq
    have hbackslash : c ≠ '\\' := by rcases hquote with rfl | rfl <;> decide
    have hdelimiter : c ∈ delimiters := by rcases hquote with rfl | rfl <;> decide
    rcases h.kind with hplain | ⟨hnone, -⟩ | ⟨_, first, _, -, hfirst, hcs⟩
    · exact hplain c (List.mem_cons_self ..) hdelimiter
    · cases hnone
    · obtain ⟨rfl, rfl⟩ := List.cons_eq_cons.1 hcs
      have hsame : first ++ c :: d :: ds = inside ++ [c] :=
        (List.append_assoc first [c] (d :: ds)).symm.trans heq
      exact hfirst.ne_longer hbackslash hinside hsame

/-! ## Reading what is written -/

/-- The lexemes of a text are these tokens, wherever the text stands. -/
def Reads (ts : List Token) (text : List Char) : Prop :=
  ∀ lines offset, (tokenizeAt lines offset text).map (List.map Lexeme.token) = .ok ts

/-- A stretch that is scanned is read before what is read after it. -/
theorem Reads.of_scan {lexeme : List Char} {token? : Option Token}
    (hscan : scan c cs = ⟨lexeme, rest, .ok token?⟩) (h : Reads ts rest) :
    Reads (token?.toList ++ ts) (c :: cs) := by
  intro lines offset
  rw [tokenizeAt, hscan]
  obtain ⟨lexemes, hlexemes, hts⟩ :=
    Outcome.map_eq_ok.mp (h lines (offset + String.ofList lexeme))
  dsimp only
  rw [hlexemes, ← hts]
  cases token? <;> rfl

/-- A token is read that is set apart from what follows it. -/
theorem Reads.token (hform : Form text (.ok (some t)))
    (hapart : ∀ c, rest.head? = some c → c ∈ separators) (h : Reads ts rest) :
    Reads (t :: ts) (text ++ rest) := by
  obtain ⟨c, cs, rfl⟩ := List.exists_cons_of_ne_nil hform.ne_nil
  exact h.of_scan ((hform.longest_token hapart).scan_eq rfl)

/-- Where a character of another class follows, only characters before it are dropped. -/
theorem dropWhile_append_of_head {p : Char → Bool} (stretch : List Char)
    (hrest : ∀ c, rest.head? = some c → ¬ p c) :
    (stretch ++ rest).dropWhile p = stretch.dropWhile p ++ rest := by
  have hstop : rest.dropWhile p = rest := by
    cases rest with
    | nil => rfl
    | cons c cs => exact List.dropWhile_cons_of_neg (hrest c rfl)
  rw [List.dropWhile_append, hstop]
  split
  next hempty => rw [List.isEmpty_iff.1 hempty, List.nil_append]
  next => rfl

/-- White space between tokens is made of the blanks. -/
theorem isSpace_iff : isSpace c ↔ c ∈ blanks := by
  simp [isSpace, blanks, or_assoc]

/-- Blanks leave no token. -/
theorem Reads.blanks {gap : List Char} (hgap : ∀ c ∈ gap, c ∈ blanks)
    (hrest : ∀ c, rest.head? = some c → c ∉ Lexer.blanks) (h : Reads ts rest) :
    Reads ts (gap ++ rest) := by
  cases gap with
  | nil => exact h
  | cons c cs =>
    obtain ⟨hc, hcs⟩ := List.forall_mem_cons.1 hgap
    have hall : cs.dropWhile isSpace = [] :=
      List.dropWhile_eq_nil_iff.2 fun d hd => isSpace_iff.2 (hcs d hd)
    have hscan := scan_space (isSpace_iff.2 hc) (cs ++ rest)
    rw [dropWhile_append_of_head cs fun d hd => isSpace_iff.not.2 (hrest d hd), hall] at hscan
    exact h.of_scan hscan

/-- Neither does a comment. It ends where its line does; blanks before that may belong to it. -/
theorem Reads.comment {comment gap : List Char} (hcomment : ∀ c ∈ comment, c ≠ '\n' ∧ c ≠ '\r')
    (hgap : ∀ c ∈ gap, c ∈ Lexer.blanks) (hrest : ∀ c, rest.head? = some c → c = '\n')
    (h : Reads ts rest) : Reads ts ('/' :: '/' :: (comment ++ (gap ++ rest))) := by
  have hparts : ∀ c ∈ comment, isCommentPart c := by
    intro c hc
    simpa [isCommentPart] using hcomment c hc
  have hline : ∀ {p : Char → Bool}, ¬ p '\n' → ∀ c, rest.head? = some c → ¬ p c :=
    fun hp c hc => by rwa [hrest c hc]
  have hscan := scan_comment (comment ++ (gap ++ rest))
  rw [List.dropWhile_append_of_pos hparts,
    dropWhile_append_of_head gap (hline (by decide))] at hscan
  have hreads : Reads ts (gap.dropWhile isCommentPart ++ rest) := by
    refine .blanks (fun c hc => hgap c ((List.dropWhile_sublist _).subset hc)) (fun c hc => ?_) h
    rw [hrest c hc]
    decide
  exact hreads.of_scan hscan

/-- What stands before a token, or at the end, leaves no token. -/
theorem Gap.reads {ending : Prop} {gap : List Char} (hgap : Gap ending gap)
    (hblank : ∀ c, rest.head? = some c → c ∉ Lexer.blanks)
    (hline : ending → ∀ c, rest.head? = some c → c = '\n') (h : Reads ts rest) :
    Reads ts (gap ++ rest) := by
  cases hgap with
  | blanks htext => exact h.blanks htext hblank
  | @comment before text after hending hbefore htext hafter =>
    have hcomment := h.comment htext hafter (hline hending)
    have hslash : ∀ c, ('/' :: '/' :: (text ++ (after ++ rest))).head? = some c →
        c ∉ Lexer.blanks := by
      intro c hc
      cases hc
      decide
    have hreads := hcomment.blanks hbefore hslash
    simpa using hreads

/-- The end of a line is written as a line feed. -/
theorem Form.newline_eq (h : Form text (.ok (some .newline))) : text = ['\n'] := by
  cases h with
  | newline => rfl
  | reserved hword => cases hword

/-- What is written is read. -/
theorem Written.reads (h : Written ts text) : Reads ts text := by
  induction h with
  | @nil gap hgap =>
    have hend : Reads [] [] := fun lines offset => by
      rw [tokenizeAt]
      rfl
    have hreads : Reads [] (gap ++ []) := hgap.reads (by simp) (by simp) hend
    rwa [List.append_nil] at hreads
  | @cons t ts gap text rest hgap hform hapart _ ih =>
    obtain ⟨c, cs, rfl⟩ := List.exists_cons_of_ne_nil hform.ne_nil
    refine hgap.reads (fun d hd => ?_) (fun ht d hd => ?_) (ih.token hform hapart)
    · cases hd
      exact fun hmem => hform.head_not_separator (List.mem_cons_of_mem _ hmem)
    · cases hd
      subst ht
      exact (List.cons_eq_cons.1 hform.newline_eq).1

/-! ## Tokens that can be written -/

/-- There may be nothing between two tokens. -/
theorem Gap.nil {ending : Prop} : Gap ending [] := .blanks (List.forall_mem_nil _)

/-- Before what is written may stand a blank more. -/
theorem Written.blank (h : Written ts text) (hc : c ∈ blanks) : Written ts (c :: text) := by
  have hmore : ∀ {ending : Prop} {gap : List Char}, Gap ending gap → Gap ending (c :: gap) := by
    intro ending gap hgap
    cases hgap with
    | blanks htext => exact .blanks (List.forall_mem_cons.2 ⟨hc, htext⟩)
    | comment hending hbefore htext hafter =>
      exact .comment hending (List.forall_mem_cons.2 ⟨hc, hbefore⟩) htext hafter
  cases h with
  | nil hgap => exact .nil (hmore hgap)
  | cons hgap hform hapart hrest => exact .cons (hmore hgap) hform hapart hrest

/-- A backslash before every character resolves to any content. -/
theorem quoted_escaped (quote : Char) (content : List Char) :
    Quoted quote (content.flatMap fun c => ['\\', c]) content := by
  induction content with
  | nil => exact .empty
  | cons c content ih => exact .escape c ih

/-- The digits of a number. -/
theorem exists_digits {n : Int64} (hn : 0 ≤ n.toInt) :
    ∃ digits, Digits digits ∧ n.toInt = Nat.ofDigitChars 10 digits 0 := by
  refine ⟨Nat.toDigits 10 n.toInt.toNat, ⟨Nat.toDigits_ne_nil, fun c hc => ?_⟩, ?_⟩
  · exact Nat.isDigit_of_mem_toDigits (by decide) (by decide) hc
  · rw [Nat.ofDigitChars_ten_toDigits, Int.toNat_of_nonneg hn]

end Lexer

open Lexer

/-- The tokens that can be written: numbers are not negative, names have the form of a name and are
no reserved words in any case. Fractions are left out, since not every number is the value of one.
-/
def Token.Writable : Token → Prop
  | integer n => 0 ≤ n.toInt
  | range first last => 0 ≤ first.toInt ∧ 0 ≤ last.toInt
  | real _ => False
  | identifier name => Name name.toList ∧
      ∀ word token, Reserved word token → name.toList.map Char.toLower ≠ word.toList
  | keyword _ | bool _ | null | text _ | tile _ | mark _ | newline => True

/-- A token that can be written has a form. -/
theorem Token.Writable.exists_form {t : Token} (h : t.Writable) :
    ∃ text, Form text (.ok (some t)) := by
  -- A reserved word is a form of itself, in small letters.
  have hreserved : ∀ {word : String} {token : Token}, Reserved word token →
      Form word.toList (.ok (some token)) := by
    intro word token hword
    have hlower : ∀ entry ∈ reservedWords, entry.1.toList.map foldCase = entry.1.toList := by decide
    exact .reserved hword (hlower _ (reserved_iff_mem.1 hword))
  cases t with
  | keyword word => exact ⟨_, hreserved (.keyword word)⟩
  | bool value => exact ⟨_, hreserved (.bool value)⟩
  | null => exact ⟨_, hreserved .null⟩
  | range first last =>
    obtain ⟨lower, hlower, hfirst⟩ := exists_digits h.1
    obtain ⟨upper, hupper, hlast⟩ := exists_digits h.2
    exact ⟨_, .range hlower hupper hfirst hlast⟩
  | real => exact h.elim
  | integer n =>
    obtain ⟨digits, hdigits, hn⟩ := exists_digits h
    exact ⟨_, .integer hdigits hn⟩
  | identifier name =>
    have hform := Form.name h.1 h.2
    rw [String.ofList_toList] at hform
    exact ⟨_, hform⟩
  | text value =>
    have hform := Form.text (quoted_escaped '"' value.toList)
    rw [String.ofList_toList] at hform
    exact ⟨_, hform⟩
  | tile code =>
    have hform := Form.tile (quoted_escaped '\'' code.toList)
    rw [String.ofList_toList] at hform
    exact ⟨_, hform⟩
  | mark m => exact ⟨_, .mark m⟩
  | newline => exact ⟨_, .newline⟩

/-- Tokens can be written that can be written one by one. -/
theorem exists_written {ts : List Token} (h : ∀ t ∈ ts, t.Writable) : ∃ text, Written ts text := by
  -- By induction on the tokens, with a blank after each of them.
  induction ts with
  | nil => exact ⟨[], .nil .nil⟩
  | cons t ts ih =>
    obtain ⟨ht, hts⟩ := List.forall_mem_cons.1 h
    obtain ⟨text, hform⟩ := ht.exists_form
    obtain ⟨rest, hrest⟩ := ih hts
    have hblank : ' ' ∈ blanks := by decide
    refine ⟨_, .cons .nil hform (fun c hc => ?_) (hrest.blank hblank)⟩
    cases hc
    exact List.mem_cons_of_mem _ hblank

/-- Any tokens that can be written can be written one after the other, and a text in which tokens
are written, in whichever of their forms and however they are set apart, has these tokens and no
others. -/
theorem tokenize_written (ts : List Token) :
    ((∀ t ∈ ts, t.Writable) → ∃ source : String, Written ts source.toList) ∧
      ∀ source : String, Written ts source.toList →
        (tokenize source).map (List.map Lexeme.token) = .ok ts := by
  refine ⟨fun h => ?_, fun source h => h.reads (.ofText source) 0⟩
  obtain ⟨text, htext⟩ := exists_written h
  exact ⟨String.ofList text, by rwa [String.toList_ofList]⟩

/-- A reserved word in capitals, a name that begins like one, a range up to the greatest word, a
comment with a quote in it, and a quote in quotes. -/
theorem tokenize_written_line :
    let ts : List Token :=
      [.keyword .within, .identifier "in-x", .range 7 9223372036854775807, .newline, .tile "a'"]
    let source := "IN\tin-x\x0c007..9223372036854775807 // 'end\r\n 'a\\''"
    (∀ t ∈ ts, t.Writable) ∧ (∃ other : String, Written ts other.toList) ∧
      Written ts source.toList ∧ (tokenize source).map (List.map Lexeme.token) = .ok ts := by
  intro ts source
  have hname : Name ['i', 'n', '-', 'x'] := ⟨'i', ['n', '-', 'x'], rfl, by decide, by simp⟩
  have hfree : ∀ word token, Reserved word token →
      ['i', 'n', '-', 'x'].map Char.toLower ≠ word.toList := by
    rintro word token (word | value | _)
    · cases word <;> decide
    · cases value <;> decide
    · decide
  have hwritable : ∀ t ∈ ts, t.Writable := by
    simp only [ts, List.forall_mem_cons]
    exact ⟨trivial, ⟨hname, hfree⟩, ⟨by decide, by decide⟩, trivial, trivial, List.forall_mem_nil _⟩
  -- The forms of the tokens, and the gaps between them.
  have hin : Form ['I', 'N'] (.ok (some (.keyword .within))) :=
    .reserved (.keyword .within) (by decide)
  have hidentifier : Form ['i', 'n', '-', 'x'] (.ok (some (.identifier "in-x"))) :=
    .name hname hfree
  have hrange : Form ("007".toList ++ '.' :: '.' :: "9223372036854775807".toList)
      (.ok (some (.range 7 9223372036854775807))) :=
    .range ⟨by simp, by simp⟩ ⟨by simp, by simp⟩ (by cbv) (by cbv)
  have htile : Form ('\'' :: (['a', '\\', '\''] ++ ['\''])) (.ok (some (.tile "a'"))) :=
    .tile (.plain (by simp) (by simp) (.escape '\'' .empty))
  have hgap : ∀ {ending : Prop}, ∀ c ∈ blanks, Gap ending [c] :=
    fun c hc => .blanks (List.forall_mem_singleton.2 hc)
  have hcomment : Gap (Token.newline = .newline)
      ([' '] ++ '/' :: '/' :: (" 'end".toList ++ ['\r'])) :=
    .comment rfl (by simp [blanks]) (by simp) (by simp [blanks])
  -- From the last token to the first one.
  have hsource : Written ts source.toList := by
    have hwritten := Written.cons (hgap ' ' (by simp [blanks])) htile (by simp) (.nil .nil)
    have hwritten := Written.cons hcomment .newline (by simp [separators, blanks]) hwritten
    have hwritten := Written.cons (hgap '\x0c' (by simp [blanks])) hrange
      (by simp [separators, blanks]) hwritten
    have hwritten := Written.cons (hgap '\t' (by simp [blanks])) hidentifier
      (by simp [separators, blanks]) hwritten
    have hwritten := Written.cons .nil hin (by simp [separators, blanks]) hwritten
    simpa [ts, source] using hwritten
  obtain ⟨hsome, hreads⟩ := tokenize_written ts
  exact ⟨hwritable, hsome hwritable, hsource, hreads source hsource⟩

end HandTemplate
