import Mathlib
import HandTemplate.Proofs.Json.Document
import HandTemplate.Proofs.Outcome

/-!
# Written documents are read back

A document without real numbers that is written in either style is read back as it was: its strings
with all their characters, its integers, and its fields and items in order. Main statement:
`ofText_render`.
-/

namespace HandTemplate

namespace Json

/-- A document in which no real number stands. -/
inductive NoReal : Json → Prop where
  | null : NoReal null
  | bool {value : Bool} : NoReal (bool value)
  | integer {value : Int64} : NoReal (integer value)
  | string {value : String} : NoReal (string value)
  | array {items : List Json} (hitems : ∀ item ∈ items, NoReal item) : NoReal (array items)
  | object {fields : List (String × Json)} (hfields : ∀ field ∈ fields, NoReal field.2) :
      NoReal (object fields)

namespace Reader

/-! ## White space -/

/-- Blanks in front of a text are skipped. -/
theorem skipBlanks_append {blanks : List Char} (h : ∀ c ∈ blanks, isBlank c) (rest : List Char) :
    skipBlanks (blanks ++ rest) = skipBlanks rest := by
  unfold skipBlanks
  rw [List.dropWhile_append_of_pos h]

/-- Nothing is skipped in front of another character. -/
theorem skipBlanks_cons {c : Char} (h : isBlank c = false) (rest : List Char) :
    skipBlanks (c :: rest) = c :: rest := by
  unfold skipBlanks
  rw [List.dropWhile_cons, h]
  rfl

/-- A line end and its indentation are blanks. -/
theorem line_blank (style : Style) (level : Nat) : ∀ c ∈ style.line level, isBlank c := by
  cases style with
  | compact => exact fun c hc => nomatch hc
  | pretty =>
    intro c hc
    obtain rfl | hc := List.mem_cons.mp hc
    · rfl
    · rw [(List.mem_replicate.mp hc).2]
      rfl

/-! ## Strings -/

/-- An escape within a string stands for its character. -/
theorem stringTail_escape {cs rest : List Char} {c : Char} (h : escape cs = .ok (c, rest)) :
    stringTail ('\\' :: cs) = (stringTail rest).map fun (tail, rest) => (c :: tail, rest) := by
  rw [stringTail]
  simp only [Char.reduceEq, if_false, if_true]
  split
  next heq => rw [h] at heq; cases heq
  next heq =>
    rw [h] at heq
    cases heq
    rfl

/-- A character that needs no escape stands for itself. -/
theorem stringTail_plain {c : Char} (hquote : c ≠ '"') (hslash : c ≠ '\\')
    (hcontrol : 0x20 ≤ c.toNat) (cs : List Char) :
    stringTail (c :: cs) = (stringTail cs).map fun (tail, rest) => (c :: tail, rest) := by
  rw [stringTail, if_neg hquote, if_neg hslash, if_neg (Nat.not_lt.mpr hcontrol)]

/-- Two digits in base sixteen give a control character back. -/
theorem hexValue_control : ∀ n < 0x20,
    hexValue? '0' '0' (hexDigit (n / 16)) (hexDigit n) = some n := by decide

/-- A control character is read back from its code. -/
theorem escape_control {c : Char} (h : c.toNat < 0x20) (rest : List Char) :
    escape ('u' :: '0' :: '0' :: hexDigit (c.toNat / 16) :: hexDigit c.toNat :: rest) =
      .ok (c, rest) := by
  -- The four digits are read as one code unit.
  have hunit : codeUnit ('0' :: '0' :: hexDigit (c.toNat / 16) :: hexDigit c.toNat :: rest) =
      .ok (c.toNat, rest) := by
    rw [codeUnit, hexValue_control _ h]
  -- Such a code unit is no half of a pair and stands for itself.
  have htrailing : isTrailing c.toNat = false := by
    unfold isTrailing
    simp
    omega
  have hleading : isLeading c.toNat = false := by
    unfold isLeading
    simp
    omega
  change escapedUnits _ = _
  unfold escapedUnits
  rw [hunit]
  simp only [bind, Except.bind, htrailing, hleading]
  exact congrArg (fun d => Except.ok (d, rest)) (Char.ofNat_toNat c)

/-- A written character is read back. -/
theorem stringTail_writeChar (c : Char) (rest : List Char) :
    stringTail (writeChar c ++ rest) =
      (stringTail rest).map fun (tail, rest) => (c :: tail, rest) := by
  unfold writeChar
  split_ifs with hquote hslash hback hfeed hline hreturn htab hcontrol
  -- The escapes of one letter are read back by computation.
  · subst hquote
    exact stringTail_escape rfl
  · subst hslash
    exact stringTail_escape rfl
  · subst hback
    exact stringTail_escape rfl
  · subst hfeed
    exact stringTail_escape rfl
  · subst hline
    exact stringTail_escape rfl
  · subst hreturn
    exact stringTail_escape rfl
  · subst htab
    exact stringTail_escape rfl
  · exact stringTail_escape (escape_control hcontrol rest)
  · exact stringTail_plain hquote hslash (Nat.le_of_not_lt hcontrol) rest

/-- The characters of a written string are read back up to its closing quote. -/
theorem stringTail_written (s rest : List Char) :
    stringTail (s.flatMap writeChar ++ '"' :: rest) = .ok (s, rest) := by
  induction s with
  | nil => rw [List.flatMap_nil, List.nil_append, stringTail, if_pos rfl]
  | cons c s ih =>
    rw [List.flatMap_cons, List.append_assoc, stringTail_writeChar, ih]
    rfl

/-! ## Numbers -/

/-- What follows a number that ends where its digits end. -/
def EndsNumber (rest : List Char) : Prop :=
  ∀ c ∈ rest.head?, c.isDigit = false ∧ c ≠ '.' ∧ c ≠ 'e' ∧ c ≠ 'E'

/-- No number goes on at a character that is neither a digit nor a point nor the letter of an
exponent. -/
theorem EndsNumber.cons {c : Char} {rest : List Char} (hdigit : c.isDigit = false)
    (hpoint : c ≠ '.') (hlower : c ≠ 'e') (hupper : c ≠ 'E') : EndsNumber (c :: rest) := by
  rintro _ ⟨⟩
  exact ⟨hdigit, hpoint, hlower, hupper⟩

/-- The digits of a natural number begin with one. -/
theorem exists_toDigits (n : Nat) :
    ∃ d digits, Nat.toDigits 10 n = d :: digits ∧ d.isDigit = true := by
  obtain ⟨d, digits, hcons⟩ :=
    List.exists_cons_of_ne_nil (Nat.toDigits_ne_nil : Nat.toDigits 10 n ≠ [])
  have hmem : d ∈ Nat.toDigits 10 n := by
    rw [hcons]
    exact List.mem_cons_self ..
  exact ⟨d, digits, hcons, Nat.isDigit_of_mem_toDigits (by decide) (by decide) hmem⟩

/-- The digits of a natural number are taken off as far as they go. -/
theorem span_digits (n : Nat) {rest : List Char} (h : EndsNumber rest) :
    (Nat.toDigits 10 n ++ rest).span Char.isDigit = (Nat.toDigits 10 n, rest) := by
  have hdigits : ∀ c ∈ Nat.toDigits 10 n, c.isDigit = true := fun c hc =>
    Nat.isDigit_of_mem_toDigits (by decide) (by decide) hc
  rw [List.span_eq_takeWhile_dropWhile, List.takeWhile_append_of_pos hdigits,
    List.dropWhile_append_of_pos hdigits]
  cases rest with
  | nil => simp
  | cons c rest => simp [(h c rfl).1]

/-- Only zero begins with the digit zero. -/
theorem head?_toDigits {n : Nat} (hn : 0 < n) : (Nat.toDigits 10 n).head? ≠ some '0' := by
  have hdigit : ∀ d < 10, 0 < d → Nat.digitChar d ≠ '0' := by decide
  induction n using Nat.strong_induction_on with
  | _ n ih =>
    rcases Nat.lt_or_ge n 10 with hlt | hge
    · rw [Nat.toDigits_of_lt_base hlt]
      exact fun h => hdigit n hlt hn (Option.some.inj h)
    · rw [Nat.toDigits_of_base_le (by decide) hge,
        List.head?_append_of_ne_nil _ Nat.toDigits_ne_nil]
      exact ih (n / 10) (by omega) (by omega)

/-- There is no fraction where the number has ended. -/
theorem fraction_none {rest : List Char} (h : EndsNumber rest) :
    fraction rest = .ok (none, rest) := by
  unfold fraction
  split
  next => exact absurd rfl (h _ rfl).2.1
  next => rfl

/-- There is no exponent where the number has ended. -/
theorem exponent_none {rest : List Char} (h : EndsNumber rest) :
    exponent rest = .ok (none, rest) := by
  unfold exponent
  split
  next => exact absurd rfl (h _ rfl).2.2.1
  next => exact absurd rfl (h _ rfl).2.2.2
  next => rfl

/-- The digits of a natural number are read as a number without a point and an exponent. -/
theorem unsignedNumber_toDigits (negative : Bool) (n : Nat) {rest : List Char}
    (h : EndsNumber rest) : unsignedNumber negative (Nat.toDigits 10 n ++ rest) =
      .ok (numberOf negative (Nat.toDigits 10 n) none none, rest) := by
  unfold unsignedNumber
  rw [span_digits n h]
  dsimp only
  rw [fraction_none h]
  -- A zero at the beginning is allowed only as the whole number.
  rcases Nat.eq_zero_or_pos n with rfl | hn
  · rw [show Nat.toDigits 10 0 = ['0'] from rfl]
    simp only [bind, Except.bind, pure, Except.pure, exponent_none h]
  · have hhead := head?_toDigits hn
    split
    next hnil => exact absurd hnil Nat.toDigits_ne_nil
    next hzero => rw [hzero] at hhead; exact absurd rfl hhead
    next => simp only [bind, Except.bind, pure, Except.pure, exponent_none h]

/-- A word is read back from the digits of its magnitude. -/
theorem numberOf_toDigits {negative : Bool} {a : Int64} {n : Nat}
    (h : a.toInt = if negative then -(n : Int) else n) :
    numberOf negative (Nat.toDigits 10 n) none none = .integer a := by
  unfold numberOf
  dsimp only
  rw [Nat.ofDigitChars_ten_toDigits, ← h]
  simp only [Option.isNone_none, Bool.and_self, if_true, Number.ofInt?_eq_some_iff.mpr rfl]

/-- A written integer is read back. -/
theorem number_written (a : Int64) {rest : List Char} (h : EndsNumber rest) :
    number ((Number.text a).toList ++ rest) = .ok (.integer a, rest) := by
  unfold Number.text
  rw [Int.toString_eq_repr]
  cases hvalue : a.toInt with
  -- Without a sign the number begins with a digit.
  | ofNat n =>
    change number (n.repr.toList ++ rest) = _
    rw [Nat.toList_repr]
    have hnumber : number (Nat.toDigits 10 n ++ rest) =
        unsignedNumber false (Nat.toDigits 10 n ++ rest) := by
      unfold number
      split
      next heq =>
        -- A digit is no minus sign.
        obtain ⟨d, digits, hcons, hd⟩ := exists_toDigits n
        rw [hcons] at heq
        cases heq
        exact absurd hd (by decide)
      next => rfl
    rw [hnumber, unsignedNumber_toDigits false n h, numberOf_toDigits hvalue]
  -- The sign of a negative number is taken off first, and its digits are read like the others.
  | negSucc n =>
    change number (("-" ++ (n + 1).repr).toList ++ rest) = _
    rw [String.toList_append, Nat.toList_repr]
    change unsignedNumber true (Nat.toDigits 10 (n + 1) ++ rest) = _
    rw [unsignedNumber_toDigits true (n + 1) h, numberOf_toDigits hvalue]

/-! ## Series -/

/-- The end of an array or of an object. -/
def IsClosing (c : Char) : Prop := c = ']' ∨ c = '\x7d'

instance : DecidablePred IsClosing := fun c => inferInstanceAs (Decidable (c = ']' ∨ c = '\x7d'))

/-- Nothing is skipped in front of a closing mark. -/
theorem IsClosing.skipBlanks {closing : Char} (h : IsClosing closing) (rest : List Char) :
    Reader.skipBlanks (closing :: rest) = closing :: rest := by
  rcases h with rfl | rfl <;> exact skipBlanks_cons rfl rest

/-- What comes after the last item ends a number. -/
theorem IsClosing.endsNumber {closing : Char} (h : IsClosing closing) (style : Style) (level : Nat)
    (rest : List Char) : EndsNumber (style.line level ++ closing :: rest) := by
  cases style with
  | compact => rcases h with rfl | rfl <;> exact .cons rfl (by decide) (by decide) (by decide)
  | pretty => exact .cons rfl (by decide) (by decide) (by decide)

/-- A text that begins neither with white space nor with the end of an array or an object. -/
def Opens (text : List Char) : Prop :=
  ∃ c tail, text = c :: tail ∧ isBlank c = false ∧ ¬ IsClosing c

/-- Nothing is skipped in front of a text that begins a document. -/
theorem Opens.skipBlanks {text : List Char} (h : Opens text) (rest : List Char) :
    Reader.skipBlanks (text ++ rest) = text ++ rest := by
  obtain ⟨c, tail, rfl, hblank, -⟩ := h
  exact skipBlanks_cons hblank _

/-- A text that an item begins with and that is read as `x` wherever a series goes on or ends after
it. -/
def Spells {α : Type} (item : List Char → Except ReadError (Taken α)) (text : List Char) (x : α) :
    Prop :=
  Opens text ∧ ∀ rest, EndsNumber rest → item (text ++ rest) = .ok (x, rest)

/-- What comes after an item of a series: the items after it, each with its comma, and the end. -/
def others (style : Style) (level : Nat) (closing : Char) (texts : List (List Char))
    (rest : List Char) : List Char :=
  texts.flatMap (fun text => ',' :: style.line (level + 1) ++ text) ++
    (style.line level ++ closing :: rest)

/-- The first of some further items stands after a comma on a line of its own. -/
theorem others_cons (closing : Char) (style : Style) (level : Nat) (text : List Char)
    (texts : List (List Char)) (rest : List Char) :
    others style level closing (text :: texts) rest =
      ',' :: (style.line (level + 1) ++ (text ++ others style level closing texts rest)) := by
  simp only [others, List.flatMap_cons, List.cons_append, List.append_assoc]

/-- Every item after the first one takes a character at least. -/
theorem length_lt_others (closing : Char) (style : Style) (level : Nat) (texts : List (List Char))
    (rest : List Char) : texts.length < (others style level closing texts rest).length := by
  induction texts with
  | nil =>
    simp only [others, List.flatMap_nil, List.nil_append, List.length_append, List.length_cons,
      List.length_nil]
    omega
  | cons text texts ih =>
    simp only [others_cons, List.length_append, List.length_cons]
    omega

section
variable {closing : Char} (hclosing : IsClosing closing)
include hclosing

/-- A series is at its end. -/
theorem another_closing (style : Style) (level : Nat) (first : Bool) (rest : List Char) :
    another closing first (style.line level ++ closing :: rest) = .ok (false, rest) := by
  unfold another
  rw [skipBlanks_append (line_blank style level), hclosing.skipBlanks]
  exact if_pos rfl

/-- The first item of a series begins. -/
theorem another_first {text : List Char} (htext : Opens text) (style : Style) (level : Nat)
    (rest : List Char) :
    another closing true (style.line level ++ (text ++ rest)) = .ok (true, text ++ rest) := by
  unfold another
  rw [skipBlanks_append (line_blank style level), htext.skipBlanks]
  obtain ⟨c, tail, rfl, -, hne⟩ := htext
  have hc : c ≠ closing := fun h => hne (h ▸ hclosing)
  exact (if_neg hc).trans (if_pos rfl)

/-- After a comma, another item begins. -/
theorem another_comma {text : List Char} (htext : Opens text) (style : Style) (level : Nat)
    (rest : List Char) :
    another closing false (',' :: (style.line level ++ (text ++ rest))) =
      .ok (true, text ++ rest) := by
  have hcomma : ',' ≠ closing := by rcases hclosing with rfl | rfl <;> decide
  unfold another
  rw [skipBlanks_cons rfl]
  dsimp only
  rw [if_neg hcomma, skipBlanks_append (line_blank style level), htext.skipBlanks]
  obtain ⟨c, tail, rfl, -, hne⟩ := htext
  have hc : c ≠ closing := fun h => hne (h ▸ hclosing)
  exact if_neg hc

variable {α : Type} {item : List Char → Except ReadError (Taken α)}

/-- A number that is an item of a series ends where its digits end. -/
theorem others_endsNumber (style : Style) (level : Nat) (texts : List (List Char))
    (rest : List Char) : EndsNumber (others style level closing texts rest) := by
  cases texts with
  | nil => exact hclosing.endsNumber style level rest
  | cons => exact .cons rfl (by decide) (by decide) (by decide)

/-- The items of a series after its first one are read. -/
theorem series_others {style : Style} {level : Nat} {texts : List (List Char)} {xs : List α}
    (h : List.Forall₂ (Spells item) texts xs) {bound : Nat} (hbound : texts.length < bound)
    (rest : List Char) :
    series closing item bound false (others style level closing texts rest) = .ok (xs, rest) := by
  induction h generalizing bound with
  | nil =>
    obtain ⟨bound, rfl⟩ := Nat.exists_eq_succ_of_ne_zero (Nat.ne_of_gt hbound)
    rw [series, others, List.flatMap_nil, List.nil_append, another_closing hclosing]
    rfl
  | @cons text x texts xs hfirst hothers ih =>
    obtain ⟨bound, rfl⟩ := Nat.exists_eq_succ_of_ne_zero (Nat.ne_of_gt (Nat.zero_lt_of_lt hbound))
    have hends := others_endsNumber hclosing style level texts rest
    rw [others_cons, series, another_comma hclosing hfirst.1]
    simp only [bind, Except.bind, if_true, hfirst.2 _ hends, ih (Nat.lt_of_succ_lt_succ hbound),
      pure, Except.pure]

/-- All items of an array or an object are read. -/
theorem series_enclose {style : Style} {level : Nat} {texts : List (List Char)} {xs : List α}
    (h : List.Forall₂ (Spells item) texts xs) (opening : Char) (rest : List Char) :
    ∃ cs, enclose style level opening closing texts ++ rest = opening :: cs ∧
      series closing item (cs.length + 1) true cs = .ok (xs, rest) := by
  cases h with
  | nil =>
    refine ⟨closing :: rest, rfl, ?_⟩
    rw [series, show another closing true (closing :: rest) = .ok (false, rest) from
      another_closing hclosing .compact level true rest]
    rfl
  | @cons text x texts xs hfirst hothers =>
    -- The first item has no comma in front, the others have one each.
    refine ⟨style.line (level + 1) ++ (text ++ others style level closing texts rest), ?_, ?_⟩
    · simp only [enclose, others, List.append_assoc, List.cons_append, List.nil_append]
    have hends := others_endsNumber hclosing style level texts rest
    have hlength := length_lt_others closing style level texts rest
    rw [series, another_first hclosing hfirst.1]
    simp only [bind, Except.bind, if_true, hfirst.2 _ hends, pure, Except.pure]
    rw [series_others hclosing hothers]
    -- The length of the text bounds the number of items, since each of them takes a character.
    simp only [List.length_append]
    omega

end

/-! ## Values -/

/-- A written string is read back, whatever follows it. -/
theorem string_written (s : String) (rest : List Char) :
    string (writeString s ++ rest) = .ok (s, rest) := by
  unfold string writeString
  rw [List.append_assoc, List.cons_append, skipBlanks_cons rfl]
  simp only [List.cons_append, List.nil_append, stringTail_written, Except.map,
    String.ofList_toList]

/-- A written string begins a document. -/
theorem writeString_opens (s : String) : Opens (writeString s) :=
  ⟨'"', _, rfl, rfl, by decide⟩

/-- What is written between delimiters begins a document. -/
theorem enclose_opens {opening : Char} (hblank : isBlank opening = false)
    (hopening : ¬ IsClosing opening) (style : Style) (level : Nat) (closing : Char)
    (texts : List (List Char)) : Opens (enclose style level opening closing texts) := by
  cases texts <;> exact ⟨opening, _, rfl, hblank, hopening⟩

/-- A word is read back. -/
theorem word_written (expected rest : List Char) :
    word expected (expected ++ rest) = .ok ((), rest) := by
  induction expected with
  | nil => rfl
  | cons c expected ih => rw [List.cons_append, word, if_pos rfl, ih]

/-- Whether a character begins a number. -/
def startsNumber (c : Char) : Bool := c = '-' || c.isDigit

/-- A character that begins no number is not the first one of a number. -/
theorem ne_of_startsNumber {c d : Char} (hc : startsNumber c = true)
    (hd : startsNumber d = false) : c ≠ d := by
  rintro rfl
  rw [hc] at hd
  cases hd

/-- A number begins with no blank. -/
theorem not_isBlank_of_startsNumber {c : Char} (hc : startsNumber c = true) :
    isBlank c = false := by
  rw [Bool.eq_false_iff]
  intro hblank
  simp only [isBlank, Bool.or_eq_true, decide_eq_true_eq] at hblank
  rcases hblank with ((rfl | rfl) | rfl) | rfl <;> cases hc

/-- An integer is written in characters that can begin a number, and in one at least. -/
theorem exists_text (a : Int64) :
    ∃ c tail, (Number.text a).toList = c :: tail ∧ ∀ d ∈ c :: tail, startsNumber d = true := by
  have hdigits : ∀ n, ∀ d ∈ Nat.toDigits 10 n, startsNumber d = true := fun n d hd => by
    rw [startsNumber, Nat.isDigit_of_mem_toDigits (by decide) (by decide) hd, Bool.or_true]
  unfold Number.text
  rw [Int.toString_eq_repr]
  cases a.toInt with
  | ofNat n =>
    obtain ⟨d, digits, hcons, -⟩ := exists_toDigits n
    exact ⟨d, digits, (Nat.toList_repr ..).trans hcons, hcons ▸ hdigits n⟩
  | negSucc n =>
    refine ⟨'-', _, (String.toList_append ..).trans (congrArg _ (Nat.toList_repr ..)), ?_⟩
    rintro d (_ | ⟨_, hd⟩)
    · rfl
    · exact hdigits (n + 1) d hd

/-- A written integer begins a document. -/
theorem text_opens (a : Int64) : Opens (Number.text a).toList := by
  obtain ⟨c, tail, htext, hchars⟩ := exists_text a
  have hc := hchars c (List.mem_cons_self ..)
  refine ⟨c, tail, htext, not_isBlank_of_startsNumber hc, ?_⟩
  rintro (h | h) <;> exact ne_of_startsNumber hc rfl h

/-- A written integer is read back, in front of what does not go on with it. -/
theorem value_integer (a : Int64) (levels : Nat) {rest : List Char} (h : EndsNumber rest) :
    value (levels + 1) ((Number.text a).toList ++ rest) = .ok (.integer a, rest) := by
  have hnumber := number_written a h
  obtain ⟨c, tail, htext, hchars⟩ := exists_text a
  have hc := hchars c (List.mem_cons_self ..)
  have hopens := (text_opens a).skipBlanks rest
  rw [htext] at hnumber hopens ⊢
  rw [value, hopens]
  dsimp only [List.cons_append]
  -- None of the characters that are tried before begins a number.
  rw [if_neg (ne_of_startsNumber hc rfl), if_neg (ne_of_startsNumber hc rfl),
    if_neg (ne_of_startsNumber hc rfl), if_neg (ne_of_startsNumber hc rfl),
    if_neg (ne_of_startsNumber hc rfl), if_neg (ne_of_startsNumber hc rfl)]
  exact (if_pos hc).trans hnumber

/-- The word for nothing is read back. -/
theorem value_null (levels : Nat) (rest : List Char) :
    value (levels + 1) ("null".toList ++ rest) = .ok (.null, rest) := by
  change value (levels + 1) ('n' :: ("ull".toList ++ rest)) = _
  rw [value, skipBlanks_cons rfl]
  simp only [if_true, word_written, Except.map]

/-- A written truth value is read back. -/
theorem value_bool (b : Bool) (levels : Nat) (rest : List Char) :
    value (levels + 1) ((if b then "true" else "false").toList ++ rest) = .ok (.bool b, rest) := by
  cases b with
  | true =>
    change value (levels + 1) ('t' :: ("rue".toList ++ rest)) = _
    rw [value, skipBlanks_cons rfl]
    simp only [Char.reduceEq, if_false, if_true, word_written, Except.map]
  | false =>
    change value (levels + 1) ('f' :: ("alse".toList ++ rest)) = _
    rw [value, skipBlanks_cons rfl]
    simp only [Char.reduceEq, if_false, if_true, word_written, Except.map]

/-- A written string is read back. -/
theorem value_string (s : String) (levels : Nat) (rest : List Char) :
    value (levels + 1) (writeString s ++ rest) = .ok (.string s, rest) := by
  unfold writeString
  rw [value, List.append_assoc, List.cons_append, skipBlanks_cons rfl]
  simp only [Char.reduceEq, if_false, if_true, List.cons_append, List.nil_append,
    stringTail_written, Except.map, String.ofList_toList]

/-- An array is read back if its items are. -/
theorem value_array {levels : Nat} {style : Style} {level : Nat} {texts : List (List Char)}
    {items : List Json} (h : List.Forall₂ (Spells (value levels)) texts items) (rest : List Char) :
    value (levels + 1) (enclose style level '[' ']' texts ++ rest) = .ok (.array items, rest) := by
  obtain ⟨cs, hcs, hseries⟩ := series_enclose (.inl rfl) h '[' rest
  rw [hcs, value, skipBlanks_cons rfl]
  simp only [Char.reduceEq, if_false, if_true, hseries, Except.map]

/-- An object is read back if its fields are. -/
theorem value_object {levels : Nat} {style : Style} {level : Nat} {texts : List (List Char)}
    {fields : List (String × Json)}
    (h : List.Forall₂ (Spells (field (value levels))) texts fields) (rest : List Char) :
    value (levels + 1) (enclose style level '\x7b' '\x7d' texts ++ rest) =
      .ok (.object fields, rest) := by
  obtain ⟨cs, hcs, hseries⟩ := series_enclose (.inr rfl) h '\x7b' rest
  rw [hcs, value, skipBlanks_cons rfl]
  simp only [Char.reduceEq, if_false, if_true, hseries, Except.map]

/-- White space before a value does not matter. -/
theorem value_append (levels : Nat) {blanks : List Char} (h : ∀ c ∈ blanks, isBlank c)
    (cs : List Char) : value levels (blanks ++ cs) = value levels cs := by
  cases levels with
  | zero => rfl
  | succ levels => rw [value, value, skipBlanks_append h]

/-- After the colon of a field stands white space at most. -/
theorem exists_colon (style : Style) :
    ∃ blanks, style.colon = ':' :: blanks ∧ ∀ c ∈ blanks, isBlank c := by
  cases style with
  | compact => exact ⟨[], rfl, fun _ h => nomatch h⟩
  | pretty => exact ⟨[' '], rfl, fun c h => by rw [List.mem_singleton.mp h]; rfl⟩

/-- A field is read back if its value is. -/
theorem spells_field {levels : Nat} {text : List Char} {document : Json}
    (h : Spells (value levels) text document) (style : Style) (name : String) :
    Spells (field (value levels)) (writeString name ++ style.colon ++ text) (name, document) := by
  obtain ⟨blanks, hcolon, hblanks⟩ := exists_colon style
  refine ⟨⟨'"', _, rfl, rfl, by decide⟩, fun rest hrest => ?_⟩
  have hmark : mark ':' (style.colon ++ (text ++ rest)) = .ok ((), blanks ++ (text ++ rest)) := by
    rw [hcolon, mark, List.cons_append, skipBlanks_cons rfl]
    exact if_pos rfl
  have hvalue : value levels (blanks ++ (text ++ rest)) = .ok (document, rest) := by
    rw [value_append levels hblanks, h.2 rest hrest]
  unfold field
  rw [List.append_assoc, List.append_assoc, string_written]
  simp only [bind, Except.bind, hmark, hvalue, pure, Except.pure]

end Reader

open Reader

/-! ## Documents -/

/-- The text of an item is shorter than that of its series. -/
theorem length_lt_enclose {style : Style} {level : Nat} {opening closing : Char}
    {texts : List (List Char)} {text : List Char} (h : text ∈ texts) :
    text.length < (enclose style level opening closing texts).length := by
  cases texts with
  | nil => cases h
  | cons first others =>
    simp only [enclose, List.length_append, List.length_cons]
    rcases List.mem_cons.mp h with rfl | hmem
    · omega
    · have hother : ',' :: style.line (level + 1) ++ text <:+:
          others.flatMap (fun text => ',' :: style.line (level + 1) ++ text) :=
        List.infix_of_mem_flatten (List.mem_map_of_mem hmem)
      have hlength := hother.length_le
      simp only [List.length_append, List.length_cons] at hlength
      omega

/-- Items that are each read back from their texts make up a series. -/
theorem forall₂_spells {α : Type} {item : List Char → Except ReadError (Taken α)}
    {text : α → List Char} {xs : List α} (h : ∀ x ∈ xs, Spells item (text x) x) :
    List.Forall₂ (Spells item) (xs.map text) xs := by
  rw [List.forall₂_map_left_iff, List.forall₂_same]
  exact h

/-- A document in either style is read back, where as many levels are allowed as its text has
characters. -/
theorem spells_write (style : Style) {document : Json} (h : NoReal document) :
    ∀ {level levels : Nat}, (write style level document).length ≤ levels →
      Spells (value (levels + 1)) (write style level document) document := by
  -- By induction on the document: what is written inside lists and objects is shorter, and needs
  -- fewer levels.
  induction h with
  | null =>
    intro level levels _
    simp only [write]
    exact ⟨⟨'n', _, rfl, rfl, by decide⟩, fun rest _ => value_null levels rest⟩
  | @bool b =>
    intro level levels _
    simp only [write]
    refine ⟨?_, fun rest _ => value_bool b levels rest⟩
    cases b
    · exact ⟨'f', _, rfl, rfl, by decide⟩
    · exact ⟨'t', _, rfl, rfl, by decide⟩
  | @integer a =>
    intro level levels _
    simp only [write]
    exact ⟨text_opens a, fun rest hrest => value_integer a levels hrest⟩
  | @string s =>
    intro level levels _
    simp only [write]
    exact ⟨writeString_opens s, fun rest _ => value_string s levels rest⟩
  | @array items _ ih =>
    intro level levels hlevels
    simp only [write] at hlevels ⊢
    refine ⟨enclose_opens rfl (by decide) .., fun rest _ =>
      value_array (forall₂_spells fun item hitem => ?_) rest⟩
    -- An array has a character more than each item, which makes up for the level that it takes.
    have hlength := (length_lt_enclose (List.mem_map_of_mem hitem)).trans_le hlevels
    obtain ⟨levels, rfl⟩ := Nat.exists_eq_succ_of_ne_zero (Nat.ne_of_gt (Nat.zero_lt_of_lt hlength))
    exact ih item hitem (Nat.le_of_lt_succ hlength)
  | @object fields _ ih =>
    intro level levels hlevels
    simp only [write] at hlevels ⊢
    refine ⟨enclose_opens rfl (by decide) .., fun rest _ =>
      value_object (forall₂_spells fun f hf => spells_field ?_ style f.1) rest⟩
    have hlength := (length_lt_enclose (List.mem_map_of_mem hf)).trans_le hlevels
    obtain ⟨levels, rfl⟩ := Nat.exists_eq_succ_of_ne_zero (Nat.ne_of_gt (Nat.zero_lt_of_lt hlength))
    apply ih f hf
    simp only [List.length_append] at hlength
    omega

/-- A document that is written in either style is read back. -/
theorem ofText_render (style : Style) {document : Json} (h : NoReal document) :
    ofText (document.render style) = .ok document := by
  have hvalue : value ((write style 0 document).length + 1) (write style 0 document ++ []) =
      .ok (document, []) := (spells_write style h le_rfl).2 [] fun _ h => nomatch h
  rw [List.append_nil] at hvalue
  unfold ofText render
  rw [String.length_ofList, String.toList_ofList, hvalue]
  rfl

end Json

end HandTemplate
