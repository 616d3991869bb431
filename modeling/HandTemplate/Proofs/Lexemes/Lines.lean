import HandTemplate.Token.Lexer
import Mathlib.Data.List.DropRight
import Mathlib.Data.String.Basic

/-!
# Lines and columns by counting

A text has the lexemes and the fault that it has when positions are counted on from each stretch to
the next (`tokenize_eq`). This is so because the index of its lines gives the position that is
counted in the text before an offset (`LineIndex.position_eq`): as many lines begin at the offset or
before as one and the line feeds before it, however wide the characters are, and the last of them
begins where the characters after the last of these line feeds do.
-/

namespace HandTemplate

open String (utf8Len utf8Len_cons)

/-- The search by halving finds the end of the values that satisfy `p`, where these come first. -/
theorem partitionPoint_append {α : Type} {p : α → Bool} {front back : List α}
    (hfront : ∀ x ∈ front, p x = true) (hback : ∀ x ∈ back, p x = false) :
    partitionPoint p (front ++ back).toArray = front.length := by
  -- The property says on which side of the end a place lies.
  have hp (i : Nat) (hi : i < (front ++ back).toArray.size) :
      p (front ++ back).toArray[i] = true ↔ i < front.length := by
    rw [List.getElem_toArray, List.getElem_append]
    split
    next hlt => exact iff_of_true (hfront _ (List.getElem_mem _)) hlt
    next hlt => exact iff_of_false (by rw [hback _ (List.getElem_mem _)]; decide) hlt
  -- The end stays between the bounds of the search.
  have go (low high : Nat) (hhigh : high ≤ (front ++ back).toArray.size)
      (hlow : low ≤ front.length) (hend : front.length ≤ high) :
      partitionPoint.go p (front ++ back).toArray low high hhigh = front.length := by
    fun_induction partitionPoint.go p (front ++ back).toArray low high hhigh with
    | case1 low high hhigh h middle hmiddle hpmiddle ih =>
      exact ih ((hp middle hmiddle).mp hpmiddle) hend
    | case2 low high hhigh h middle hmiddle hpmiddle ih =>
      exact ih hlow (Nat.le_of_not_lt fun hlt => hpmiddle ((hp middle hmiddle).mpr hlt))
    | case3 low high hhigh h => exact Nat.le_antisymm hlow (by omega)
  exact go 0 _ (Nat.le_refl _) (Nat.zero_le _) (by simp)

/-- The position of what stands after some characters of a text, by counting them: its line is one
more than there are line feeds, and its column is one more than there are characters after the last
line feed, or in all if there is none. -/
def Position.after (before : List Char) : Position :=
  ⟨1 + before.count '\n', 1 + (before.rtakeWhile (· ≠ '\n')).length⟩

/-- Whoever passes the characters one by one from the start of a text comes to that position. -/
theorem Position.advance_start (before : List Char) : start.advance before = after before := by
  induction before using List.reverseRecOn with
  | nil => rfl
  | append_singleton before c ih =>
    rw [advance_append, ih, advance_cons, advance_nil, next, after, after, List.count_append,
      List.count_singleton, List.rtakeWhile_concat]
    by_cases hc : c = '\n'
    · simp [hc, Nat.add_assoc]
    · simp [hc, Nat.add_assoc]

/-! ## Line feeds and the lines after them -/

/-- A line feed is one at its offset, and every character takes its width. -/
theorem lineFeeds_cons (o : Nat) (c : Char) (cs : List Char) :
    lineFeeds ⟨o⟩ (c :: cs) =
      (if c = '\n' then [⟨o⟩] else []) ++ lineFeeds ⟨o + c.utf8Size⟩ cs := by
  rw [lineFeeds]
  split <;> rfl

/-- The line feeds of a text are those among its first characters and those after them. -/
theorem lineFeeds_append (o : Nat) (before after : List Char) :
    lineFeeds ⟨o⟩ (before ++ after) =
      lineFeeds ⟨o⟩ before ++ lineFeeds ⟨o + utf8Len before⟩ after := by
  induction before generalizing o with
  | nil => rfl
  | cons c cs ih =>
    have hafter : o + utf8Len (c :: cs) = o + c.utf8Size + utf8Len cs := by
      rw [utf8Len_cons]
      omega
    rw [List.cons_append, lineFeeds_cons, lineFeeds_cons, ih, hafter, List.append_assoc]

/-- There is a line feed for each one that is counted. -/
theorem length_lineFeeds (o : Nat) (cs : List Char) :
    (lineFeeds ⟨o⟩ cs).length = cs.count '\n' := by
  induction cs generalizing o with
  | nil => rfl
  | cons c cs ih =>
    rw [lineFeeds_cons, List.length_append, ih, List.count_cons, Nat.add_comm]
    by_cases hc : c = '\n' <;> simp [hc]

/-- A line feed is one of the characters, which do not end before it does. -/
theorem mem_lineFeeds {o : Nat} {feed : String.Pos.Raw} {cs : List Char}
    (h : feed ∈ lineFeeds ⟨o⟩ cs) :
    o ≤ feed.byteIdx ∧ (feed + '\n').byteIdx ≤ o + utf8Len cs := by
  induction cs generalizing o with
  | nil => cases h
  | cons c cs ih =>
    rw [utf8Len_cons]
    rw [lineFeeds_cons, List.mem_append] at h
    rcases h with h | h
    · split at h
      next hc =>
        rw [List.mem_singleton.mp h, hc, String.Pos.Raw.byteIdx_add_char]
        dsimp only
        omega
      next => cases h
    · have hlater := ih h
      omega

/-- There is one line more than line feeds. -/
theorem length_lineStarts (before : List Char) :
    (lineStarts before).length = 1 + before.count '\n' := by
  have hfeeds := length_lineFeeds 0 before
  rw [lineStarts, List.length_cons, List.length_map, Nat.add_comm]
  exact congrArg (1 + ·) hfeeds

/-- Lines begin in the first characters of a text or after them, and after the line feeds among the
others. -/
theorem lineStarts_append (before after : List Char) :
    lineStarts (before ++ after) =
      lineStarts before ++ (lineFeeds ⟨utf8Len before⟩ after).map (· + '\n') := by
  have hfeeds := lineFeeds_append 0 before after
  rw [Nat.zero_add] at hfeeds
  unfold lineStarts
  rw [List.cons_append, ← List.map_append]
  exact congrArg (fun feeds => 0 :: feeds.map (· + '\n')) hfeeds

/-- The last line of a text begins after its last line feed. -/
theorem getLast?_lineStarts (before : List Char) :
    (lineStarts before).getLast? = some ⟨utf8Len (before.rdropWhile (· ≠ '\n'))⟩ := by
  induction before using List.reverseRecOn with
  | nil => rfl
  | append_singleton before c ih =>
    rw [lineStarts_append, List.rdropWhile_concat]
    by_cases hc : c = '\n'
    · subst hc
      simp [lineFeeds, String.Pos.Raw.ext_iff]
    · simpa [lineFeeds, hc] using ih

namespace LineIndex

variable {index : LineIndex} {before after : List Char}

/-- An offset is in the last of the lines that begin in the characters before it or after them. -/
theorem line_eq (h : index.source.toList = before ++ after) :
    index.line ⟨utf8Len before⟩ = (lineStarts before).length := by
  have hstarts : index.starts =
      (lineStarts before ++ (lineFeeds ⟨utf8Len before⟩ after).map (· + '\n')).toArray := by
    rw [← lineStarts_append, ← h, ← index.starts_eq]
  rw [line, hstarts]
  -- The lines of the characters before the offset begin at it or before, the others after it.
  refine partitionPoint_append (fun start hstart => ?_) fun start hstart => ?_
  · rw [decide_eq_true_iff, String.Pos.Raw.le_iff]
    rcases List.mem_cons.mp hstart with rfl | hstart
    · exact Nat.zero_le _
    · obtain ⟨feed, hfeed, rfl⟩ := List.mem_map.mp hstart
      simpa using (mem_lineFeeds hfeed).2
  · obtain ⟨feed, hfeed, rfl⟩ := List.mem_map.mp hstart
    have hfrom := (mem_lineFeeds hfeed).1
    have hwidth := Char.utf8Size_pos '\n'
    rw [decide_eq_false_iff_not, String.Pos.Raw.le_iff, String.Pos.Raw.byteIdx_add_char]
    dsimp only
    omega

/-- That line begins where the characters after the last line feed before the offset do. -/
theorem start_eq (h : index.source.toList = before ++ after)
    (hline : index.line ⟨utf8Len before⟩ - 1 < index.starts.size) :
    index.starts[index.line ⟨utf8Len before⟩ - 1] =
      ⟨utf8Len (before.rdropWhile (· ≠ '\n'))⟩ := by
  have hlast := getLast?_lineStarts before
  have hlength : (lineStarts before).length - 1 < (lineStarts before).length :=
    Nat.sub_lt (Nat.succ_pos _) Nat.one_pos
  rw [List.getLast?_eq_getElem?, ← List.getElem?_append_left hlength, ← lineStarts_append, ← h,
    ← index.starts_eq, ← line_eq h, Array.getElem?_toList, Array.getElem?_eq_getElem hline] at hlast
  exact Option.some.inj hlast

/-- The index gives the position that is counted in the text before an offset. -/
theorem position_eq (h : index.source.toList = before ++ after) :
    index.position ⟨utf8Len before⟩ = Position.after before := by
  have hcolumn : String.Pos.Raw.extract index.source ⟨utf8Len (before.rdropWhile (· ≠ '\n'))⟩
      ⟨utf8Len before⟩ = String.ofList (before.rtakeWhile (· ≠ '\n')) := by
    have hvalid := String.extract_of_valid (before.rdropWhile (· ≠ '\n'))
      (before.rtakeWhile (· ≠ '\n')) after
    rwa [← String.utf8Len_append, List.rdropWhile_append_rtakeWhile, ← h, String.ofList_toList]
      at hvalid
  rw [position, start_eq h, hcolumn, line_eq h, length_lineStarts, String.length_ofList,
    Nat.add_comm _ 1]
  rfl

end LineIndex

/-! ## Reading with counted positions -/

namespace Lexer

/-- The lexemes of a text whose first character stands at `position`, when positions are counted on
from each stretch to the next. -/
def tokenizeFrom (position : Position) : List Char → Except LexicalFault (List Lexeme)
  | [] => .ok []
  | c :: cs =>
    match (scan c cs).outcome with
    | .error cause => .error ⟨cause, position⟩
    | .ok token? => do
      let later ← tokenizeFrom (position.advance (scan c cs).lexeme) (scan c cs).rest
      return (token?.map (⟨·, position⟩)).toList ++ later
termination_by cs => cs.length
decreasing_by exact Nat.lt_succ_of_le (length_rest_le c cs)

/-- Wherever a text is read on, its positions are those that are counted. -/
theorem tokenizeAt_eq {lines : LineIndex} {before text : List Char} {p : Position}
    (h : lines.source.toList = before ++ text) (hp : Position.start.advance before = p) :
    tokenizeAt lines ⟨utf8Len before⟩ text = tokenizeFrom p text := by
  -- Both readings agree on the positions, so that they differ only in what they carry along.
  have hposition {before after : List Char} (h : lines.source.toList = before ++ after) :
      lines.position ⟨utf8Len before⟩ = Position.start.advance before := by
    rw [LineIndex.position_eq h, Position.advance_start]
  fun_induction tokenizeFrom p text generalizing before with
  | case1 p => rw [tokenizeAt]
  | case2 p c cs cause hcause => rw [tokenizeAt, hcause, hposition h, hp]
  | case3 p c cs token? htoken ih =>
    have hoffset : String.Pos.Raw.mk (utf8Len before) + String.ofList (scan c cs).lexeme =
        ⟨utf8Len (before ++ (scan c cs).lexeme)⟩ := by
      rw [String.utf8Len_append, ← String.utf8ByteSize_ofList (scan c cs).lexeme]
      rfl
    have hlater : tokenizeAt lines ⟨utf8Len (before ++ (scan c cs).lexeme)⟩ (scan c cs).rest =
        tokenizeFrom (p.advance (scan c cs).lexeme) (scan c cs).rest :=
      ih (by rw [h, List.append_assoc, lexeme_append_rest]) (by rw [Position.advance_append, hp])
    rw [tokenizeAt, htoken, hposition h, hp, hoffset]
    dsimp only
    rw [hlater]

end Lexer

/-- The lexemes of a text and its fault are at the positions that are counted. -/
theorem tokenize_eq (source : String) :
    tokenize source = Lexer.tokenizeFrom .start source.toList :=
  Lexer.tokenizeAt_eq (List.nil_append _).symm rfl

end HandTemplate
