import HandTemplate.Position

/-!
# The lines of a text

What reads a text knows its places by their byte offsets. An index of the offsets at which the lines
begin turns these into positions: the line of an offset is found by halving, and its column by
counting the characters from the start of that line.
-/

namespace HandTemplate

/-- How many values of an array satisfy `p`, if these are its first ones. Their end is found by
halving. -/
def partitionPoint {α : Type} (p : α → Bool) (xs : Array α) : Nat :=
  go 0 xs.size (Nat.le_refl _)
where
  /-- The end, if it is not before `low` nor after `high`. -/
  go (low high : Nat) (hhigh : high ≤ xs.size) : Nat :=
    if h : low < high then
      let middle := low + (high - low) / 2
      have hmiddle : middle < xs.size := by omega
      if p xs[middle] then go (middle + 1) high hhigh else go low middle (by omega)
    else low
  termination_by high - low

/-- The end of what satisfies `p` is found within the array. -/
theorem partitionPoint_le {α : Type} (p : α → Bool) (xs : Array α) :
    partitionPoint p xs ≤ xs.size := by
  have go (low high : Nat) (hhigh : high ≤ xs.size) (hlow : low ≤ high) :
      partitionPoint.go p xs low high hhigh ≤ high := by
    fun_induction partitionPoint.go p xs low high hhigh with
    | case1 low high hhigh h middle hmiddle hp ih => exact ih (by omega)
    | case2 low high hhigh h middle hmiddle hp ih =>
      have hstep := ih (by omega)
      omega
    | case3 low high hhigh h => exact hlow
  exact go 0 xs.size (Nat.le_refl _) (Nat.zero_le _)

/-- The offsets of the line feeds among characters that begin at an offset. -/
def lineFeeds (offset : String.Pos.Raw) : List Char → List String.Pos.Raw
  | [] => []
  | c :: cs =>
    if c = '\n' then offset :: lineFeeds (offset + c) cs else lineFeeds (offset + c) cs

/-- The offsets at which the lines of a text begin: one line begins with the text, and one after
each of its line feeds. -/
def lineStarts (cs : List Char) : List String.Pos.Raw := 0 :: (lineFeeds 0 cs).map (· + '\n')

/-- The lines of a text. -/
structure LineIndex where
  /-- The text. -/
  source : String
  /-- The byte offsets at which its lines begin. -/
  starts : Array String.Pos.Raw
  /-- They are in their order, and none is left out. -/
  starts_eq : starts.toList = lineStarts source.toList

namespace LineIndex

/-- The lines of a text. -/
def ofText (source : String) : LineIndex where
  source
  starts := (lineStarts source.toList).toArray
  starts_eq := rfl

/-- The line that an offset is in, counted from one: so many lines begin there or before. -/
def line (index : LineIndex) (offset : String.Pos.Raw) : Nat :=
  partitionPoint (· ≤ offset) index.starts

/-- The line of an offset is one of the text. -/
theorem line_pred_lt (index : LineIndex) (offset : String.Pos.Raw) :
    index.line offset - 1 < index.starts.size := by
  have hline : index.line offset ≤ index.starts.size := partitionPoint_le _ _
  have hsize : 0 < index.starts.size := by
    rw [← Array.length_toList, index.starts_eq]
    exact Nat.succ_pos _
  omega

/-- The position of what stands at an offset. -/
def position (index : LineIndex) (offset : String.Pos.Raw) : Position :=
  have hline := index.line_pred_lt offset
  let start := index.starts[index.line offset - 1]
  ⟨index.line offset, (start.extract index.source offset).length + 1⟩

end LineIndex

end HandTemplate
