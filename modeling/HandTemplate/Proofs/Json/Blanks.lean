import Mathlib
import HandTemplate.Proofs.Json.RoundTrip

/-!
# White space between tokens

The two styles of a document differ in nothing but white space outside its strings: what is left of
the pretty text without it is the compact text.
-/

namespace HandTemplate

namespace Json

open Reader (isBlank startsNumber)

/-- Where in a text a character stands. -/
inductive Place where
  /-- Outside all strings. -/
  | outside
  /-- Within a string. -/
  | inside
  /-- Within a string, after a backslash. -/
  | escaped
  deriving DecidableEq, Repr

/-- Where the next character stands after a character at the given place. -/
def Place.next : Place → Char → Place
  | outside, c => if c = '"' then inside else outside
  | inside, c => if c = '"' then outside else if c = '\\' then escaped else inside
  | escaped, _ => inside

/-- A text from the given place on without the white space outside its strings. -/
def unspaced : Place → List Char → List Char
  | _, [] => []
  | place, c :: cs =>
    if place = .outside ∧ isBlank c then unspaced place cs else c :: unspaced (place.next c) cs

/-- A text that begins and ends outside all strings, where `short` is left of it without white
space. -/
def Condenses (text short : List Char) : Prop :=
  ∀ rest, unspaced .outside (text ++ rest) = short ++ unspaced .outside rest

namespace Condenses

/-- Nothing is left of nothing. -/
theorem nil : Condenses [] [] := fun _ => rfl

/-- One text after the other. -/
theorem append {text text' short short' : List Char} (h : Condenses text short)
    (h' : Condenses text' short') : Condenses (text ++ text') (short ++ short') := by
  intro rest
  rw [List.append_assoc, h, h', List.append_assoc]

/-- White space outside strings is left out. -/
theorem blanks {text : List Char} (h : ∀ c ∈ text, isBlank c) : Condenses text [] := by
  intro rest
  induction text with
  | nil => rfl
  | cons c text ih =>
    rw [List.cons_append, unspaced, if_pos ⟨rfl, h c (List.mem_cons_self ..)⟩]
    exact ih fun d hd => h d (List.mem_cons_of_mem c hd)

/-- Other characters that begin no string are left. -/
theorem plain {text : List Char} (h : ∀ c ∈ text, isBlank c = false ∧ c ≠ '"') :
    Condenses text text := by
  intro rest
  induction text with
  | nil => rfl
  | cons c text ih =>
    obtain ⟨hblank, hquote⟩ := h c (List.mem_cons_self ..)
    have hnext : Place.next .outside c = .outside := if_neg hquote
    rw [List.cons_append, unspaced, if_neg (fun hc => Bool.false_ne_true (hblank ▸ hc.2)), hnext,
      ih fun d hd => h d (List.mem_cons_of_mem c hd)]
    rfl

/-- A mark is left as it is. -/
theorem mark {c : Char} (hblank : isBlank c = false) (hquote : c ≠ '"') : Condenses [c] [c] :=
  .plain fun d hd => by rw [List.mem_singleton.mp hd]; exact ⟨hblank, hquote⟩

/-- Of a line end and its indentation nothing is left, as of none. -/
theorem line (style : Style) (level : Nat) :
    Condenses (style.line level) (Style.compact.line level) :=
  .blanks (Reader.line_blank style level)

/-- What encloses a series and what stands between its items is left without white space. -/
theorem enclose {style : Style} {level : Nat} {opening closing : Char}
    (hopening : Condenses [opening] [opening]) (hclosing : Condenses [closing] [closing])
    {texts shorts : List (List Char)} (h : List.Forall₂ Condenses texts shorts) :
    Condenses (Json.enclose style level opening closing texts)
      (Json.enclose .compact level opening closing shorts) := by
  have hcomma : Condenses [','] [','] := .mark rfl (by decide)
  cases h with
  | nil => exact hopening.append hclosing
  | @cons text short texts shorts hfirst hothers =>
    have hrest : Condenses (texts.flatMap fun text => ',' :: style.line (level + 1) ++ text)
        (shorts.flatMap fun short => ',' :: Style.compact.line (level + 1) ++ short) := by
      induction hothers with
      | nil => exact .nil
      | cons hitem _ ih => exact ((hcomma.append (.line style (level + 1))).append hitem).append ih
    exact ((((hopening.append (.line style (level + 1))).append hfirst).append hrest).append
      (.line style level)).append hclosing

/-- The colon of a field is left. -/
theorem colon (style : Style) : Condenses style.colon [':'] := by
  obtain ⟨spaces, hcolon, hspaces⟩ := Reader.exists_colon style
  rw [hcolon]
  exact (mark rfl (by decide) : Condenses [':'] [':']).append (blanks hspaces)

end Condenses

/-! ## Strings -/

/-- The digits in base sixteen end no string and begin no escape. -/
theorem hexDigit_inside (n : Nat) : Place.inside.next (hexDigit n) = .inside := by
  have hdigit : ∀ d < 16, Place.inside.next (Nat.digitChar d) = .inside := by decide
  exact hdigit (n % 16) (Nat.mod_lt n (by decide))

/-- A character after which the string goes on is left, even if it is white space. -/
theorem unspaced_inside {c : Char} (h : Place.inside.next c = .inside) (cs : List Char) :
    unspaced .inside (c :: cs) = c :: unspaced .inside cs := by
  rw [unspaced, if_neg (fun hc => nomatch hc.1), h]

/-- A character within a string is left as it is written. -/
theorem unspaced_writeChar (c : Char) (rest : List Char) :
    unspaced .inside (writeChar c ++ rest) = writeChar c ++ unspaced .inside rest := by
  unfold writeChar
  split_ifs with hquote hslash hback hfeed hline hreturn htab hcontrol
  all_goals try rfl
  · -- Where the escape ends depends on its digits, which are not known.
    have hzero : Place.inside.next '0' = .inside := rfl
    change '\\' :: 'u' :: unspaced .inside ('0' :: '0' :: hexDigit (c.toNat / 16) ::
      hexDigit c.toNat :: rest) = _
    rw [unspaced_inside hzero, unspaced_inside hzero, unspaced_inside (hexDigit_inside _),
      unspaced_inside (hexDigit_inside _)]
    rfl
  · have hnext : Place.inside.next c = .inside := (if_neg hquote).trans (if_neg hslash)
    exact unspaced_inside hnext rest

/-- A string is left as it is written. -/
theorem condenses_writeString (s : String) : Condenses (writeString s) (writeString s) := by
  -- Up to the closing quote, the text stays within the string.
  have hinside : ∀ (cs rest : List Char), unspaced .inside (cs.flatMap writeChar ++ '"' :: rest) =
      cs.flatMap writeChar ++ '"' :: unspaced .outside rest := by
    intro cs rest
    induction cs with
    | nil => rfl
    | cons c cs ih =>
      rw [List.flatMap_cons, List.append_assoc, unspaced_writeChar, ih, List.append_assoc]
  intro rest
  unfold writeString
  rw [List.append_assoc, List.append_assoc]
  exact congrArg _ (hinside s.toList rest)

/-! ## Documents -/

/-- An integer is left as it is written. -/
theorem condenses_text (a : Int64) : Condenses (Number.text a).toList (Number.text a).toList := by
  obtain ⟨c, tail, htext, hchars⟩ := Reader.exists_text a
  rw [htext]
  exact .plain fun d hd => ⟨Reader.not_isBlank_of_startsNumber (hchars d hd),
    Reader.ne_of_startsNumber (hchars d hd) rfl⟩

/-- What is left of the text of a document without white space is its compact text. -/
theorem condenses_write (style : Style) {document : Json} (h : NoReal document) :
    ∀ level, Condenses (write style level document) (write .compact level document) := by
  -- By induction on the document, at all levels at once, since the items of a list are written one
  -- level further in.
  induction h with
  | null =>
    intro level
    simp only [write]
    exact fun _ => rfl
  | @bool b =>
    intro level
    simp only [write]
    cases b <;> exact fun _ => rfl
  | @integer a =>
    intro level
    simp only [write]
    exact condenses_text a
  | @string s =>
    intro level
    simp only [write]
    exact condenses_writeString s
  | @array items _ ih =>
    intro level
    simp only [write]
    apply Condenses.enclose (.mark rfl (by decide)) (.mark rfl (by decide))
    rw [List.forall₂_map_left_iff, List.forall₂_map_right_iff, List.forall₂_same]
    exact fun item hitem => ih item hitem (level + 1)
  | @object fields _ ih =>
    intro level
    simp only [write]
    apply Condenses.enclose (.mark rfl (by decide)) (.mark rfl (by decide))
    rw [List.forall₂_map_left_iff, List.forall₂_map_right_iff, List.forall₂_same]
    exact fun f hf => ((condenses_writeString f.1).append (.colon style)).append
      (ih f hf (level + 1))

/-- The pretty text of a document without the white space outside its strings is the compact
text. -/
theorem unspaced_render (style : Style) {document : Json} (h : NoReal document) :
    unspaced .outside (document.render style).toList = (document.render .compact).toList := by
  have hwrite := condenses_write style h 0 []
  rw [List.append_nil, unspaced, List.append_nil] at hwrite
  rw [render, render, String.toList_ofList, String.toList_ofList, hwrite]

end Json

end HandTemplate
