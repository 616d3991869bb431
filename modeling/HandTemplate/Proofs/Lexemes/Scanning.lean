import HandTemplate.Proofs.Lexemes.Form

/-!
# What a scan finds

The scan of a text finds the longest stretch with a form that the text begins with
(`longest_scan`). Two facts about every kind of stretch lead there: what is scanned has a form
(`scan_form`), and a text that begins with some form is scanned at least as far as that form reaches
(`Form.covered`).
-/

namespace HandTemplate

namespace Lexer

/-- The scan takes at least `text`, and `text` alone only with the given outcome. -/
structure Covers (s : Scan) (text : List Char) (outcome : Outcome) : Prop where
  /-- What is scanned begins with the text. -/
  reaches : text <+: s.lexeme
  /-- If it is no longer, it is that form. -/
  exact : s.lexeme = text → s.outcome = outcome
  /-- It is no quoted text without an end. -/
  closed : s.outcome ≠ .error .unclosedQuote

variable {c : Char} {text cs after : List Char} {outcome : Outcome}

/-! ## Quoted texts -/

/-- A text in quotes is found up to its closing quote, and its escapes are resolved. -/
theorem Quoted.closing? {quote : Char} {inside content : List Char}
    (h : Quoted quote inside content) (hquote : quote ≠ '\\') (after : List Char) :
    closing? quote (inside ++ quote :: after) = some (inside ++ [quote], after) ∧
      unescape inside = content := by
  induction h with
  | empty => simp [Lexer.closing?, unescape, hquote]
  | @plain c inside content hne hescape _ ih =>
    have hunescape : unescape (c :: inside) = c :: unescape inside := by
      simp [unescape, hescape]
    rw [hunescape, ih.2]
    exact ⟨by simp [Lexer.closing?, hne, hescape, ih.1], rfl⟩
  | @escape c inside content _ ih =>
    rw [unescape, ih.2]
    exact ⟨by simp [Lexer.closing?, ih.1], rfl⟩

/-- What stands before a closing quote that is found is quoted. -/
theorem quoted_of_closing? {quote : Char} {inside rest : List Char}
    (h : closing? quote cs = some (inside, rest)) :
    ∃ body content, inside = body ++ [quote] ∧ Quoted quote body content := by
  -- By the recursion of the search: an escape of two characters, the closing quote, or a plain
  -- character.
  fun_induction closing? quote cs generalizing inside rest with
  | case1 c cs ih =>
    obtain ⟨⟨later, after⟩, hlater, hsplit⟩ := Option.map_eq_some_iff.1 h
    cases hsplit
    obtain ⟨body, content, rfl, hbody⟩ := ih hlater
    exact ⟨'\\' :: c :: body, c :: content, rfl, .escape c hbody⟩
  | case2 =>
    cases h
    exact ⟨[], [], rfl, .empty⟩
  | case3 => cases h
  | case4 c cs _ hquote hescape ih =>
    obtain ⟨⟨later, after⟩, hlater, hsplit⟩ := Option.map_eq_some_iff.1 h
    cases hsplit
    obtain ⟨body, content, rfl, hbody⟩ := ih hlater
    exact ⟨c :: body, c :: content, rfl, .plain hquote hescape hbody⟩
  | case5 => cases h

/-- A form in quotes is scanned as it is. -/
theorem Quoted.covered {quote : Char} {inside content : List Char}
    (h : Quoted quote inside content) (hquote : quote ≠ '\\') (token : String → Token)
    (after : List Char) :
    Covers (scanQuoted quote token (inside ++ [quote] ++ after)) (quote :: (inside ++ [quote]))
      (.ok (some (token (String.ofList content)))) := by
  have hscan : scanQuoted quote token (inside ++ [quote] ++ after) =
      ⟨quote :: (inside ++ [quote]), after, .ok (some (token (String.ofList content)))⟩ := by
    obtain ⟨hclosing, hunescape⟩ := h.closing? hquote after
    rw [List.append_assoc, List.singleton_append, scanQuoted, hclosing]
    simp [hunescape]
  rw [hscan]
  exact ⟨List.prefix_rfl, fun _ => rfl, fun h => (nomatch h)⟩

/-! ## Numbers -/

/-- The word of digits is the one of their decimal value. -/
theorem integer?_eq_some_iff {digits : List Char} {n : Int64} :
    integer? digits = some n ↔ n.toInt = Nat.ofDigitChars 10 digits 0 := Number.ofInt?_eq_some_iff

/-- Digits have no word where their decimal value is too large. -/
theorem integer?_eq_none_iff {digits : List Char} :
    integer? digits = none ↔ Nat.pow 2 63 ≤ Nat.ofDigitChars 10 digits 0 := by
  have hmin : Int64.minValue.toInt = -2 ^ 63 := by decide
  have hmax : Int64.maxValue.toInt = 2 ^ 63 - 1 := by decide
  have hvalue : digitsValue digits = Nat.ofDigitChars 10 digits 0 := rfl
  rw [integer?, Number.ofInt?, hmin, hmax, hvalue]
  split <;> simp <;> omega

/-- An integer has its form. -/
theorem scanInteger_form {whole : List Char} (hwhole : Digits whole) (after : List Char) :
    Form (scanInteger whole after).lexeme (scanInteger whole after).outcome := by
  unfold scanInteger
  cases hn : integer? whole with
  | some n => exact .integer hwhole (integer?_eq_some_iff.1 hn)
  | none => exact .hugeInteger hwhole (integer?_eq_none_iff.1 hn)

/-- The digits that a text begins with. -/
theorem digits_takeWhile (hc : c.isDigit) : Digits ((c :: cs).takeWhile Char.isDigit) := by
  refine ⟨?_, fun d hd => List.all_eq_true.1 List.all_takeWhile d hd⟩
  rw [List.takeWhile_cons_of_pos hc]
  exact List.cons_ne_nil _ _

/-- A range has its form. -/
theorem scanRange_form {whole : List Char} (hwhole : Digits whole) (hc : c.isDigit) :
    Form (scanRange whole (c :: cs)).lexeme (scanRange whole (c :: cs)).outcome := by
  have hupper : Digits ((c :: cs).takeWhile Char.isDigit) := digits_takeWhile hc
  unfold scanRange
  cases hfirst : integer? whole with
  | none => exact .hugeRange hwhole hupper (.inl (integer?_eq_none_iff.1 hfirst))
  | some first =>
    cases hlast : integer? ((c :: cs).takeWhile Char.isDigit) with
    | none => exact .hugeRange hwhole hupper (.inr (integer?_eq_none_iff.1 hlast))
    | some last =>
      exact .range hwhole hupper (integer?_eq_some_iff.1 hfirst) (integer?_eq_some_iff.1 hlast)

/-- The value of a real number is the one to which its decimal fraction is rounded. -/
theorem realValue_rounds (whole fraction : List Char) :
    Binary64.Rounds false (Nat.ofDigitChars 10 (whole ++ fraction) 0 / 10 ^ fraction.length)
      (realValue whole fraction) := by
  have hvalue : digitsValue (whole ++ fraction) = Nat.ofDigitChars 10 (whole ++ fraction) 0 := rfl
  have hrounds := Binary64.ofDecimal_rounds false (digitsValue (whole ++ fraction))
    (-fraction.length)
  rw [zpow_neg, zpow_natCast, ← div_eq_mul_inv, hvalue] at hrounds
  exact hrounds

/-- Digits and what belongs to them have a form. -/
theorem scanAfter_form {whole : List Char} (hwhole : Digits whole) (after : List Char) :
    Form (scanAfter whole after).lexeme (scanAfter whole after).outcome := by
  fun_cases scanAfter whole after with
  | case1 d more hd => exact scanRange_form hwhole hd
  | case3 d more _ hd => exact .real hwhole (digits_takeWhile hd) (realValue_rounds ..)
  | case2 | case4 | case5 => exact scanInteger_form hwhole _

/-- What is scanned at a digit has a form. -/
theorem scanNumber_form (hc : c.isDigit) :
    Form (scanNumber (c :: cs)).lexeme (scanNumber (c :: cs)).outcome :=
  scanAfter_form (digits_takeWhile hc) _

/-- Digits are scanned together with the digits after them. -/
theorem scanNumber_digits {digits : List Char} (hdigits : Digits digits) (after : List Char) :
    scanNumber (digits ++ after) =
      scanAfter (digits ++ after.takeWhile Char.isDigit) (after.dropWhile Char.isDigit) := by
  rw [scanNumber, List.takeWhile_append_of_pos hdigits.2, List.dropWhile_append_of_pos hdigits.2]

/-- Before a point, digits are scanned by themselves. -/
theorem scanNumber_point {digits : List Char} (hdigits : Digits digits) (after : List Char) :
    scanNumber (digits ++ '.' :: after) = scanAfter digits ('.' :: after) := by
  have hpoint : ¬ Char.isDigit '.' := by decide
  rw [scanNumber_digits hdigits, List.takeWhile_cons_of_neg hpoint,
    List.dropWhile_cons_of_neg hpoint, List.append_nil]

/-- What is scanned from digits on is longer than they are, unless it is the integer. -/
theorem scanAfter_covers (whole after : List Char) :
    Covers (scanAfter whole after) whole (scanInteger whole after).outcome := by
  have hclosed : (scanInteger whole after).outcome ≠ .error .unclosedQuote := by
    unfold scanInteger
    cases integer? whole <;> simp
  fun_cases scanAfter whole after with
  | case1 d more hd =>
    refine ⟨List.prefix_append .., fun h => ?_, ?_⟩
    · simp [scanRange] at h
    · unfold scanRange
      split <;> simp
  | case3 d more _ hd =>
    refine ⟨List.prefix_append .., fun h => ?_, by simp [scanReal]⟩
    simp [scanReal] at h
  | case2 | case4 | case5 => exact ⟨List.prefix_rfl, fun _ => rfl, hclosed⟩

/-- An integer is scanned at least as far as it reaches. -/
theorem Digits.covered {digits : List Char} (hdigits : Digits digits) (after : List Char) :
    Covers (scanNumber (digits ++ after)) digits (scanInteger digits []).outcome := by
  rw [scanNumber_digits hdigits]
  obtain ⟨hreaches, hexact, hclosed⟩ :=
    scanAfter_covers (digits ++ after.takeWhile Char.isDigit) (after.dropWhile Char.isDigit)
  refine ⟨(List.prefix_append ..).trans hreaches, fun h => ?_, hclosed⟩
  -- What is scanned begins with all the digits there are, so there are no more than these.
  rw [h] at hreaches
  have hnone : after.takeWhile Char.isDigit = [] :=
    List.append_right_eq_self.1 (hreaches.eq_of_length_le (by simp))
  rw [hnone, List.append_nil] at h hexact ⊢
  exact hexact h

/-- The digits that begin a text are all digits. -/
theorem Digits.takeWhile {digits : List Char} (hdigits : Digits digits) :
    digits.takeWhile Char.isDigit = digits :=
  List.takeWhile_eq_self_iff.2 hdigits.2

/-- A range is scanned at least as far as it reaches. -/
theorem Digits.range_covered {lower upper : List Char} (hlower : Digits lower)
    (hupper : Digits upper) (after : List Char) :
    Covers (scanNumber (lower ++ '.' :: '.' :: upper ++ after)) (lower ++ '.' :: '.' :: upper)
      (scanRange lower upper).outcome := by
  -- The digits after the two points are those of the upper bound and any that follow the form.
  have hscan : scanNumber (lower ++ '.' :: '.' :: upper ++ after) =
      scanRange lower (upper ++ after) := by
    obtain ⟨d, more, rfl⟩ := List.exists_cons_of_ne_nil hupper.1
    rw [List.append_assoc, List.cons_append, scanNumber_point hlower]
    exact if_pos (hupper.2 d (List.mem_cons_self ..))
  have hdigits : (upper ++ after).takeWhile Char.isDigit =
      upper ++ after.takeWhile Char.isDigit := List.takeWhile_append_of_pos hupper.2
  rw [hscan]
  unfold scanRange
  rw [hdigits, hupper.takeWhile]
  refine ⟨?_, fun h => ?_, ?_⟩
  · exact ⟨after.takeWhile Char.isDigit, by simp⟩
  · have hnone : after.takeWhile Char.isDigit = [] := by simpa using h
    simp [hnone]
  · split <;> simp

/-- A real number is scanned at least as far as it reaches. -/
theorem Digits.real_covered {whole fraction : List Char} (hwhole : Digits whole)
    (hfraction : Digits fraction) (after : List Char) :
    Covers (scanNumber (whole ++ '.' :: fraction ++ after)) (whole ++ '.' :: fraction)
      (scanReal whole fraction).outcome := by
  have hscan : scanNumber (whole ++ '.' :: fraction ++ after) =
      scanReal whole (fraction ++ after) := by
    obtain ⟨d, more, rfl⟩ := List.exists_cons_of_ne_nil hfraction.1
    have hd : d.isDigit := hfraction.2 d (List.mem_cons_self ..)
    have hpoint : d ≠ '.' := by
      rintro rfl
      exact absurd hd (by decide)
    rw [List.append_assoc, List.cons_append, scanNumber_point hwhole]
    simp [scanAfter, hpoint, hd]
  have hdigits : (fraction ++ after).takeWhile Char.isDigit =
      fraction ++ after.takeWhile Char.isDigit := List.takeWhile_append_of_pos hfraction.2
  rw [hscan]
  unfold scanReal
  rw [hdigits, hfraction.takeWhile]
  -- The scan reaches at least to the end of the fraction, and with no further digits exactly so
  -- far.
  refine ⟨?_, fun h => ?_, fun h => (nomatch h)⟩
  · exact ⟨after.takeWhile Char.isDigit, by simp⟩
  · have hnone : after.takeWhile Char.isDigit = [] := by simpa using h
    simp [hnone]

/-! ## Words -/

/-- A text begins with a word in any case if the word begins its letters. -/
theorem beginsWith_iff {word : String} : beginsWith word cs ↔ word.toList <+: cs.map foldCase := by
  rw [List.prefix_iff_eq_take, beginsWith, decide_eq_true_iff, List.map_take,
    String.length_toList, eq_comm]

/-- A text begins with one reserved word at most. -/
theorem beginsWith_unique {word word' : String} {token token' : Token}
    (hword : (word, token) ∈ reservedWords) (hword' : (word', token') ∈ reservedWords)
    (h : beginsWith word cs) (h' : beginsWith word' cs) : word = word' ∧ token = token' := by
  have hfree : ∀ entry ∈ reservedWords, ∀ entry' ∈ reservedWords,
      entry.1.toList <+: entry'.1.toList → entry = entry' := by decide
  rcases List.prefix_or_prefix_of_prefix (beginsWith_iff.1 h) (beginsWith_iff.1 h') with hle | hle
  · exact Prod.mk.inj (hfree _ hword _ hword' hle)
  · have heq := Prod.mk.inj (hfree _ hword' _ hword hle)
    exact ⟨heq.1.symm, heq.2.symm⟩

/-- A reserved word that is found begins the text. -/
theorem begins_of_find? {entry : String × Token}
    (h : (reservedWords.find? fun entry => beginsWith entry.1 cs) = some entry) :
    entry ∈ reservedWords ∧ beginsWith entry.1 cs :=
  ⟨List.mem_of_find?_eq_some h,
    List.find?_some (p := fun entry : String × Token => beginsWith entry.1 cs) h⟩

/-- The reserved word that a text begins with is found. -/
theorem reserved?_eq_some_iff {token : Token} {length : Nat} :
    reserved? cs = some (token, length) ↔
      ∃ word, (word, token) ∈ reservedWords ∧ beginsWith word cs ∧ word.length = length := by
  unfold reserved?
  constructor
  · intro h
    obtain ⟨⟨word, token⟩, hfind, heq⟩ := Option.map_eq_some_iff.1 h
    obtain ⟨hword, hbegins⟩ := begins_of_find? hfind
    cases heq
    exact ⟨word, hword, hbegins, rfl⟩
  · rintro ⟨word, hword, hbegins, rfl⟩
    cases hfind : reservedWords.find? fun entry => beginsWith entry.1 cs with
    | none => exact absurd hbegins (List.find?_eq_none.1 hfind _ hword)
    | some entry =>
      obtain ⟨hentry, hfound⟩ := begins_of_find? hfind
      obtain ⟨rfl, rfl⟩ := beginsWith_unique hword hentry hbegins hfound
      rfl

/-- Within a name, the cases of a letter are the two of ASCII. -/
theorem foldCase_eq_toLower (hc : isNamePart c) : foldCase c = c.toLower := by
  have hs : c ≠ '\u017f' := by
    rintro rfl
    exact absurd hc (by decide)
  have hk : c ≠ '\u212a' := by
    rintro rfl
    exact absurd hc (by decide)
  rw [foldCase, if_neg hs, if_neg hk]

/-- The characters of a name stand within one. -/
theorem Name.parts (h : Name text) : ∀ c ∈ text, isNamePart c := by
  obtain ⟨c, cs, rfl, hc, hcs⟩ := h
  intro d hd
  rcases List.mem_cons.1 hd with rfl | hd
  · rcases hc with hc | hc <;> simp [isNamePart, Char.isAlphanum, hc]
  · rcases hcs d hd with h | h | h <;> simp [isNamePart, h]

/-- A name is spelled like a reserved word if it is that word but for the case of ASCII. -/
theorem Name.map_foldCase (h : Name text) : text.map foldCase = text.map Char.toLower :=
  List.map_congr_left fun c hc => foldCase_eq_toLower (h.parts c hc)

/-- The longest name that a text begins with. -/
theorem name_takeWhile (hc : isNameStart c) : Name ((c :: cs).takeWhile isNamePart) := by
  have hpart : isNamePart c := by
    simp only [isNameStart, Bool.or_eq_true, decide_eq_true_eq] at hc
    rcases hc with hc | hc <;> simp [isNamePart, Char.isAlphanum, hc]
  rw [List.takeWhile_cons_of_pos hpart]
  refine ⟨c, _, rfl, ?_, fun d hd => ?_⟩
  · simpa [isNameStart] using hc
  · have hd := List.all_eq_true.1 List.all_takeWhile d hd
    simpa [isNamePart, or_assoc] using hd

/-- A stretch spelled like a reserved word, and nothing shorter, begins with that word. -/
theorem beginsWith_of_map_eq {word : String} (h : text.map foldCase = word.toList)
    (after : List Char) : beginsWith word (text ++ after) := by
  rw [beginsWith_iff, List.map_append, h]
  exact List.prefix_append ..

/-- What is scanned at the start of a name has a form. -/
theorem scanWord_form (hc : isNameStart c) :
    Form (scanWord (c :: cs)).lexeme (scanWord (c :: cs)).outcome := by
  have hname : Name ((c :: cs).takeWhile isNamePart) := name_takeWhile hc
  -- A name spelled like a reserved word is that word, which is then the one found here.
  have hspelled : ∀ word token, Reserved word token →
      ((c :: cs).takeWhile isNamePart).map Char.toLower = word.toList →
        reserved? (c :: cs) = some (token, ((c :: cs).takeWhile isNamePart).length) := by
    intro word token hword heq
    rw [← hname.map_foldCase] at heq
    have hbegins := beginsWith_of_map_eq heq ((c :: cs).dropWhile isNamePart)
    rw [List.takeWhile_append_dropWhile] at hbegins
    refine reserved?_eq_some_iff.2 ⟨word, reserved_iff_mem.1 hword, hbegins, ?_⟩
    rw [← String.length_toList, ← heq, List.length_map]
  fun_cases scanWord (c :: cs) with
  | case1 token length hfound hle =>
    obtain ⟨word, hword, hbegins, rfl⟩ := reserved?_eq_some_iff.1 hfound
    exact .reserved (reserved_iff_mem.2 hword) (by simpa [beginsWith] using hbegins)
  | case2 token length hfound hle =>
    refine .name hname fun word token' hword heq => hle ?_
    have hlength := (Prod.mk.inj (Option.some.inj (hfound.symm.trans (hspelled _ _ hword heq)))).2
    exact Nat.le_of_eq hlength.symm
  | case3 hnone =>
    refine .name hname fun word token hword heq => ?_
    rw [hspelled word token hword heq] at hnone
    cases hnone

/-- A reserved word is scanned at least as far as it reaches. -/
theorem reserved_covered {word : String} {token : Token} (hword : Reserved word token)
    (hcase : text.map foldCase = word.toList) (after : List Char) :
    Covers (scanWord (text ++ after)) text (.ok (some token)) := by
  have hlength : word.length = text.length := by
    rw [← String.length_toList, ← hcase, List.length_map]
  have hfound : reserved? (text ++ after) = some (token, text.length) :=
    reserved?_eq_some_iff.2
      ⟨word, reserved_iff_mem.1 hword, beginsWith_of_map_eq hcase after, hlength⟩
  rw [scanWord, hfound]
  dsimp only
  split
  · have htake : (text ++ after).take text.length = text := List.take_left
    rw [htake]
    exact ⟨List.prefix_rfl, fun _ => rfl, fun h => (nomatch h)⟩
  -- A longer name is scanned here, of which the word is a proper beginning.
  · next hlong =>
    have hlonger : text.length < ((text ++ after).takeWhile isNamePart).length := by omega
    refine ⟨?_, fun h => ?_, fun h => (nomatch h)⟩
    · exact List.prefix_of_prefix_length_le (List.prefix_append ..) (List.takeWhile_prefix _)
        (Nat.le_of_lt hlonger)
    · exact absurd (congrArg List.length h) (Nat.ne_of_gt hlonger)

/-- A name is scanned at least as far as it reaches. -/
theorem Name.covered (hname : Name text)
    (hfree : ∀ word token, Reserved word token → text.map Char.toLower ≠ word.toList)
    (after : List Char) :
    Covers (scanWord (text ++ after)) text (.ok (some (.identifier (String.ofList text)))) := by
  have htake : (text ++ after).takeWhile isNamePart = text ++ after.takeWhile isNamePart :=
    List.takeWhile_append_of_pos hname.parts
  have hplain : Covers (scanName (text ++ after)) text
      (.ok (some (.identifier (String.ofList text)))) := by
    unfold scanName
    rw [htake]
    refine ⟨List.prefix_append .., fun h => ?_, by simp⟩
    have hnone : after.takeWhile isNamePart = [] := by simpa using h
    simp [hnone]
  fun_cases scanWord (text ++ after) with
  -- The word that is found reaches at least as far as the name. It is not the name itself, which is
  -- spelled like no reserved word.
  | case1 token length hfound hle =>
    obtain ⟨word, hword, hbegins, rfl⟩ := reserved?_eq_some_iff.1 hfound
    have hspelled : ((text ++ after).take word.length).map foldCase = word.toList := by
      simpa [beginsWith] using hbegins
    have hlength : ((text ++ after).take word.length).length = word.length := by
      rw [← List.length_map foldCase, hspelled, String.length_toList]
    have hreaches : text.length ≤ word.length := by
      rw [htake, List.length_append] at hle
      omega
    refine ⟨?_, fun h => ?_, by simp⟩
    · refine List.prefix_of_prefix_length_le (List.prefix_append ..) (List.take_prefix ..) ?_
      rw [hlength]
      exact hreaches
    · dsimp only at h
      rw [h, hname.map_foldCase] at hspelled
      exact absurd hspelled (hfree word token (reserved_iff_mem.2 hword))
  | case2 => exact hplain
  | case3 => exact hplain

/-! ## The kinds of stretches by their first characters -/

/-- The character of a mark is scanned as the mark. -/
theorem scan_mark (m : Mark) (cs : List Char) :
    scan m.char cs = ⟨[m.char], cs, .ok (some (.mark m))⟩ := by
  cases m <;> rfl

/-- White space is scanned up to its end, as no token. -/
theorem scan_space (hc : isSpace c) (cs : List Char) :
    scan c cs = ⟨c :: cs.takeWhile isSpace, cs.dropWhile isSpace, .ok none⟩ := by
  have hnewline : c ≠ '\n' := by
    rintro rfl
    exact absurd hc (by decide)
  rw [scan, if_neg hnewline, if_pos hc]

/-- A comment is scanned up to the end of its line, as no token. -/
theorem scan_comment (cs : List Char) :
    scan '/' ('/' :: cs) =
      ⟨'/' :: '/' :: cs.takeWhile isCommentPart, cs.dropWhile isCommentPart, .ok none⟩ := by
  rfl

/-- A single slash is a strange character. -/
theorem scan_slash (hcs : cs.head? ≠ some '/') :
    scan '/' cs = ⟨['/'], cs, .error (.strangeCharacter '/')⟩ := by
  have hspace : ¬ isSpace '/' := by decide
  have hcomment : ¬ ('/' = '/' && cs.head? = some '/') := by simpa using hcs
  rw [scan, if_neg (by decide), if_neg hspace, if_neg hcomment, if_neg (by decide),
    if_neg (by decide), if_neg (by decide), if_neg (by decide)]
  rfl

/-- The characters that begin spaces, the end of a line, a comment or a quoted text. -/
def openers : List Char := ['\n', ' ', '\t', '\r', '\x0c', '/', '"', '\'']

/-- A character of a class that has none of some characters is not one of these. -/
theorem not_mem_of_all {p : Char → Bool} {ds : List Char} (hds : ds.all fun d => !p d) (hc : p c) :
    c ∉ ds := by
  intro hmem
  have hnot := List.all_eq_true.1 hds c hmem
  rw [hc] at hnot
  cases hnot

/-- A character that begins none of those begins a number, a word or a mark, if anything. -/
theorem scan_plain (hc : c ∉ openers) (cs : List Char) :
    scan c cs =
      if c.isDigit then scanNumber (c :: cs)
      else if isNameStart c then scanWord (c :: cs)
      else
        match Mark.ofChar? c with
        | some mark => ⟨[c], cs, .ok (some (.mark mark))⟩
        | none => ⟨[c], cs, .error (.strangeCharacter c)⟩ := by
  simp only [openers, List.mem_cons, List.not_mem_nil, or_false, not_or] at hc
  obtain ⟨hnewline, hspace, htab, hreturn, hfeed, hslash, hdouble, hsingle⟩ := hc
  have hspaces : ¬ isSpace c := by simp [isSpace, hspace, htab, hreturn, hfeed]
  have hcomment : ¬ (c = '/' && cs.head? = some '/') := by simp [hslash]
  exact (if_neg hnewline).trans ((if_neg hspaces).trans ((if_neg hcomment).trans
    ((if_neg hdouble).trans (if_neg hsingle))))

/-- A digit begins a number. -/
theorem scan_digit (hc : c.isDigit) (cs : List Char) : scan c cs = scanNumber (c :: cs) := by
  have hopener : c ∉ openers := not_mem_of_all (p := Char.isDigit) (by decide) hc
  rw [scan_plain hopener, if_pos hc]

/-- A character that begins names begins a word. -/
theorem scan_word (hc : isNameStart c) (cs : List Char) : scan c cs = scanWord (c :: cs) := by
  have hopener : c ∉ openers := not_mem_of_all (p := isNameStart) (by decide) hc
  have hdigit : ¬ c.isDigit := by
    simp only [isNameStart, Bool.or_eq_true, decide_eq_true_eq] at hc
    rcases hc with hc | rfl
    · grind [Char.isAlpha, Char.isUpper, Char.isLower, Char.isDigit]
    · decide
  rw [scan_plain hopener, if_neg hdigit, if_pos hc]

/-- A reserved word begins like a name: with a letter of ASCII, since no word begins with `s` or
`k`. -/
theorem Reserved.isNameStart {word : String} {token : Token} (hword : Reserved word token)
    (hcase : (c :: cs).map foldCase = word.toList) : isNameStart c := by
  -- Outside ASCII only two characters fold to a letter, `s` and `k`, with which no word begins.
  have hletters : reservedWords.all fun entry =>
      entry.1.toList.head?.all fun d => d.isLower && d != 's' && d != 'k' := by decide
  have hfold : ((foldCase c).isLower && foldCase c != 's' && foldCase c != 'k') = true := by
    have hfirst := List.all_eq_true.1 hletters _ (reserved_iff_mem.1 hword)
    rw [← hcase] at hfirst
    exact hfirst
  have hs : c ≠ '\u017f' := by
    rintro rfl
    exact absurd hfold (by decide)
  have hk : c ≠ '\u212a' := by
    rintro rfl
    exact absurd hfold (by decide)
  rw [foldCase, if_neg hs, if_neg hk] at hfold
  -- What folds to a small letter is that letter or its capital.
  have halpha : c.isAlpha := by
    rw [Char.isAlpha, Bool.or_eq_true]
    by_cases hupper : c.isUpper
    · exact .inl hupper
    · have hsame : c.toLower = c := dif_neg fun h => hupper (decide_eq_true h)
      rw [hsame] at hfold
      simp only [Bool.and_eq_true] at hfold
      exact .inr hfold.1.1
  simp [Lexer.isNameStart, halpha]

/-- A text that begins with digits is scanned as a number. -/
theorem Digits.scan {whole more : List Char} (hwhole : Digits whole)
    (htext : c :: cs = whole ++ more) (after : List Char) :
    scan c (cs ++ after) = scanNumber (whole ++ more ++ after) := by
  have hc : c.isDigit := by
    obtain ⟨d, ds, rfl⟩ := List.exists_cons_of_ne_nil hwhole.1
    obtain ⟨rfl, -⟩ := List.cons_eq_cons.1 htext
    exact hwhole.2 c (List.mem_cons_self ..)
  rw [scan_digit hc, ← List.cons_append, htext]

/-! ## The longest stretch -/

/-- A text that begins with some form is scanned at least as far as that form reaches. -/
theorem Form.covered (h : Form (c :: cs) outcome) (after : List Char) :
    Covers (scan c (cs ++ after)) (c :: cs) outcome := by
  -- One case for each form: its first character decides which scan reads it, and that scan goes as
  -- far as the form at least.
  generalize htext : c :: cs = text at h
  cases h with
  | newline =>
    obtain ⟨rfl, rfl⟩ := List.cons_eq_cons.1 htext
    exact ⟨List.prefix_rfl, fun _ => rfl, fun h => (nomatch h)⟩
  | mark m =>
    obtain ⟨rfl, rfl⟩ := List.cons_eq_cons.1 htext
    rw [scan_mark]
    exact ⟨List.prefix_rfl, fun _ => rfl, fun h => (nomatch h)⟩
  | spaces hne hspaces =>
    have hall : ∀ d ∈ c :: cs, isSpace d := by
      intro d hd
      simpa [isSpace, or_assoc] using hspaces d (htext ▸ hd)
    rw [scan_space (hall c (List.mem_cons_self ..)),
      List.takeWhile_append_of_pos fun d hd => hall d (List.mem_cons_of_mem _ hd), ← htext]
    exact ⟨List.prefix_append (c :: cs) _, fun _ => rfl, fun h => (nomatch h)⟩
  | @comment text hcomment =>
    obtain ⟨rfl, rfl⟩ := List.cons_eq_cons.1 htext
    have hall : ∀ d ∈ text, isCommentPart d := by
      intro d hd
      simpa [isCommentPart] using hcomment d hd
    rw [List.cons_append, scan_comment, List.takeWhile_append_of_pos hall]
    exact ⟨List.prefix_append ('/' :: '/' :: text) _, fun _ => rfl, fun h => (nomatch h)⟩
  -- A number in range and one out of it are scanned alike and differ in the outcome.
  | integer hdigits hn =>
    have hcovers := hdigits.covered after
    rw [scanInteger, integer?_eq_some_iff.2 hn, ← htext] at hcovers
    rw [scan_digit (hdigits.2 c (htext ▸ List.mem_cons_self ..)), ← htext]
    exact hcovers
  | hugeInteger hdigits hhuge =>
    have hcovers := hdigits.covered after
    rw [scanInteger, integer?_eq_none_iff.2 hhuge, ← htext] at hcovers
    rw [scan_digit (hdigits.2 c (htext ▸ List.mem_cons_self ..)), ← htext]
    exact hcovers
  | range hlower hupper hfirst hlast =>
    have hcovers := hlower.range_covered hupper after
    rw [scanRange, hupper.takeWhile, integer?_eq_some_iff.2 hfirst,
      integer?_eq_some_iff.2 hlast] at hcovers
    rw [hlower.scan htext]
    exact hcovers
  | @hugeRange lower upper hlower hupper hhuge =>
    have hcovers := hlower.range_covered hupper after
    -- Whichever bound is too large, the fault names the whole range.
    have houtcome : (scanRange lower upper).outcome =
        .error (.hugeInteger (String.ofList (lower ++ '.' :: '.' :: upper))) := by
      rw [scanRange, hupper.takeWhile]
      rcases hhuge with hhuge | hhuge
      · rw [integer?_eq_none_iff.2 hhuge]
      · rw [integer?_eq_none_iff.2 hhuge]
        cases integer? lower <;> rfl
    rw [houtcome] at hcovers
    rw [hlower.scan htext]
    exact hcovers
  | real hwhole hfraction hx =>
    -- The scanner's value is rounded correctly, and only one value is.
    have hcovers := hwhole.real_covered hfraction after
    rw [scanReal, hfraction.takeWhile, (realValue_rounds ..).unique hx] at hcovers
    rw [hwhole.scan htext]
    exact hcovers
  | reserved hword hcase =>
    -- A reserved word and a name are both scanned as words; which of them it is, is decided there.
    subst htext
    rw [scan_word (hword.isNameStart hcase)]
    exact reserved_covered hword hcase after
  | name hname hfree =>
    subst htext
    obtain ⟨d, ds, heq, hd, -⟩ := id hname
    obtain ⟨rfl, rfl⟩ := List.cons_eq_cons.1 heq
    have hstart : isNameStart c := by simpa [isNameStart] using hd
    rw [scan_word hstart]
    exact hname.covered hfree after
  | text hquoted =>
    -- The stretch in quotes is scanned up to its own closing quote, whatever comes after it.
    obtain ⟨rfl, rfl⟩ := List.cons_eq_cons.1 htext
    exact hquoted.covered (by decide) .text after
  | tile hquoted =>
    obtain ⟨rfl, rfl⟩ := List.cons_eq_cons.1 htext
    exact hquoted.covered (by decide) .tile after

/-- A quoted text has its form, unless it has no end. -/
theorem scanQuoted_form {quote : Char} {token : String → Token} (hquote : quote ≠ '\\')
    (hform : ∀ inside content, Quoted quote inside content →
      Form (quote :: (inside ++ [quote])) (.ok (some (token (String.ofList content)))))
    (cs : List Char) :
    Form (scanQuoted quote token cs).lexeme (scanQuoted quote token cs).outcome ∨
      (scanQuoted quote token cs).outcome = .error .unclosedQuote ∧ closing? quote cs = none := by
  unfold scanQuoted
  cases hclosing : closing? quote cs with
  | none => exact .inr ⟨rfl, rfl⟩
  | some found =>
    obtain ⟨stretch, rest⟩ := found
    obtain ⟨inside, content, rfl, hquoted⟩ := quoted_of_closing? hclosing
    have hunescape := (hquoted.closing? hquote rest).2
    left
    simpa [hunescape] using hform inside content hquoted

/-- What is scanned has a form, unless it is a quoted text without an end or a character other than
a quote that begins nothing. -/
theorem scan_form (c : Char) (cs : List Char) :
    Form (scan c cs).lexeme (scan c cs).outcome ∨
      (scan c cs).outcome = .error .unclosedQuote ∧ (c = '"' ∨ c = '\'') ∧ closing? c cs = none ∨
      scan c cs = ⟨[c], cs, .error (.strangeCharacter c)⟩ ∧ c ≠ '"' ∧ c ≠ '\'' := by
  -- By the first character, in the order in which the scanner looks at it.
  by_cases hspace : isSpace c
  · rw [scan_space hspace]
    refine .inl (.spaces (List.cons_ne_nil _ _) ?_)
    have hall : ∀ d ∈ c :: cs.takeWhile isSpace, isSpace d :=
      List.forall_mem_cons.2 ⟨hspace, List.all_eq_true.1 List.all_takeWhile⟩
    intro d hd
    simpa [isSpace, or_assoc] using hall d hd
  by_cases hslash : c = '/'
  · subst hslash
    by_cases hhead : cs.head? = some '/'
    · obtain ⟨cs, rfl⟩ := List.head?_eq_some_iff.1 hhead
      rw [scan_comment]
      refine .inl (.comment fun d hd => ?_)
      simpa [isCommentPart] using List.all_eq_true.1 List.all_takeWhile d hd
    · exact .inr (.inr ⟨scan_slash hhead, by decide⟩)
  by_cases hdouble : c = '"'
  · subst hdouble
    rcases scanQuoted_form (by decide) (fun _ _ => Form.text) cs with hform | ⟨hopen, hnone⟩
    · exact .inl hform
    · exact .inr (.inl ⟨hopen, .inl rfl, hnone⟩)
  by_cases hsingle : c = '\''
  · subst hsingle
    rcases scanQuoted_form (by decide) (fun _ _ => Form.tile) cs with hform | ⟨hopen, hnone⟩
    · exact .inl hform
    · exact .inr (.inl ⟨hopen, .inr rfl, hnone⟩)
  by_cases hnewline : c = '\n'
  · subst hnewline
    exact .inl .newline
  -- From here on the first character opens none of the forms above.
  have hopener : c ∉ openers := by
    simp only [isSpace, Bool.or_eq_true, decide_eq_true_eq, not_or] at hspace
    simp [openers, hspace, hslash, hdouble, hsingle, hnewline]
  rw [scan_plain hopener]
  split
  · next hdigit => exact .inl (scanNumber_form hdigit)
  split
  · next hstart => exact .inl (scanWord_form hstart)
  cases hmark : Mark.ofChar? c with
  | none => exact .inr (.inr ⟨rfl, hdouble, hsingle⟩)
  | some m =>
    have hchar : m.char = c := by simpa using List.find?_some hmark
    rw [← hchar]
    exact .inl (.mark m)

/-- A text that begins with some form does not begin with a strange character. -/
theorem Form.not_strange {stretch : List Char} (h : Form stretch outcome)
    (hbegins : stretch <+: c :: cs) :
    scan c cs ≠ ⟨[c], cs, .error (.strangeCharacter c)⟩ := by
  intro hstrange
  obtain ⟨d, ds, rfl⟩ := List.exists_cons_of_ne_nil h.ne_nil
  obtain ⟨after, hafter⟩ := hbegins
  obtain ⟨rfl, rfl⟩ := List.cons_eq_cons.1 hafter
  change scan d (ds ++ after) = ⟨[d], ds ++ after, _⟩ at hstrange
  obtain ⟨hreaches, hexact, -⟩ := h.covered after
  rw [hstrange] at hreaches hexact
  -- The stretch is that one character, and no form is rejected as a strange one.
  have hone := hreaches.eq_of_length_le (by simp)
  rw [← hexact hone.symm] at h
  cases h.error_eq

/-- What is scanned, where it has a form, is the longest stretch that has one. -/
theorem longest_scan (h : Form (scan c cs).lexeme (scan c cs).outcome) :
    Longest (scan c cs).lexeme (scan c cs).rest (scan c cs).outcome := by
  refine ⟨h, fun other outcome hother hbegins => ?_⟩
  rw [lexeme_append_rest] at hbegins
  obtain ⟨d, ds, rfl⟩ := List.exists_cons_of_ne_nil hother.ne_nil
  obtain ⟨after, hafter⟩ := hbegins
  obtain ⟨rfl, rfl⟩ := List.cons_eq_cons.1 hafter
  exact (hother.covered after).reaches.length_le

/-- The longest stretch with a form is what is scanned. -/
theorem Longest.scan_eq {stretch : List Char} (h : Longest stretch after outcome)
    (htext : stretch ++ after = c :: cs) : scan c cs = ⟨stretch, after, outcome⟩ := by
  obtain ⟨d, ds, rfl⟩ := List.exists_cons_of_ne_nil h.form.ne_nil
  obtain ⟨rfl, rfl⟩ := List.cons_eq_cons.1 htext
  have hcovers := h.form.covered after
  rcases scan_form d (ds ++ after) with hform | ⟨hopen, -⟩ | ⟨hstrange, -⟩
  -- The scan has a form, so that neither stretch is longer than the other.
  · have hsplit := lexeme_append_rest d (ds ++ after)
    have hle := h.longest _ _ hform ⟨_, hsplit⟩
    have hlexeme := (hcovers.reaches.eq_of_length_le hle).symm
    have houtcome := hcovers.exact hlexeme
    have hrest : (scan d (ds ++ after)).rest = after := by
      rw [hlexeme] at hsplit
      exact List.append_cancel_left hsplit
    calc scan d (ds ++ after) = ⟨(scan d (ds ++ after)).lexeme, (scan d (ds ++ after)).rest,
          (scan d (ds ++ after)).outcome⟩ := rfl
      _ = ⟨d :: ds, after, outcome⟩ := by rw [hlexeme, hrest, houtcome]
  · exact absurd hopen hcovers.closed
  · exact absurd hstrange (h.form.not_strange (List.prefix_append ..))

/-- A text is rejected for a cause if its scan has that cause. -/
theorem rejected_iff_scan {cause : LexicalFault.Cause} :
    Rejected (c :: cs) cause ↔ (scan c cs).outcome = .error cause := by
  constructor
  · intro h
    generalize htext : c :: cs = text at h
    cases h with
    | @unclosed quote text hquote hopen =>
      obtain ⟨rfl, rfl⟩ := List.cons_eq_cons.1 htext
      -- No closing quote is found, since it would end a quoted text.
      have hnone : closing? c cs = none := by
        refine Option.eq_none_iff_forall_ne_some.2 fun ⟨inside, rest⟩ hfound => ?_
        obtain ⟨body, content, rfl, hbody⟩ := quoted_of_closing? hfound
        exact hopen body content hbody ⟨rest, closing?_append hfound⟩
      rcases hquote with rfl | rfl
      · have hscan : scan '"' cs = scanQuoted '"' .text cs := rfl
        rw [hscan, scanQuoted, hnone]
      · have hscan : scan '\'' cs = scanQuoted '\'' .tile cs := rfl
        rw [hscan, scanQuoted, hnone]
    | huge hstretch => rw [hstretch.scan_eq htext.symm]
    | strange hquote hnone =>
      obtain ⟨rfl, rfl⟩ := List.cons_eq_cons.1 htext
      rcases scan_form c cs with hform | ⟨-, hquotes, -⟩ | ⟨hstrange, -⟩
      · exact absurd ⟨_, lexeme_append_rest c cs⟩ (hnone _ _ hform)
      · exact absurd hquotes (by simp [hquote])
      · rw [hstrange]
  · intro h
    rcases scan_form c cs with hform | ⟨hopen, hquote, hnone⟩ | ⟨hstrange, hquote⟩
    -- A scan that has a form and a fault is a number too large.
    · rw [h] at hform
      obtain rfl := hform.error_eq
      rw [← lexeme_append_rest c cs]
      exact .huge (h ▸ longest_scan (h ▸ hform))
    · rw [hopen] at h
      cases h
      refine .unclosed hquote fun inside content hquoted hbegins => ?_
      obtain ⟨rest, rfl⟩ := hbegins
      have hbackslash : c ≠ '\\' := by rcases hquote with rfl | rfl <;> decide
      have hfound := (hquoted.closing? hbackslash rest).1
      rw [List.append_assoc, List.singleton_append, hfound] at hnone
      cases hnone
    · rw [hstrange] at h
      cases h
      exact .strange hquote fun stretch outcome hform hbegins => hform.not_strange hbegins hstrange

end Lexer

end HandTemplate
