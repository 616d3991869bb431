import Mathlib
import HandTemplate.Path

/-!
# The steps of a path

A path is the same as its steps, and joining paths puts their steps one after the other. What stands
in a directory is named by a step that is neither idle nor leads upward.
-/

namespace HandTemplate

namespace Path

/-! ## Splitting -/

/-- A text is split at the slashes as a list is at an item. -/
theorem split_eq_splitOn (cs : List Char) : split cs = cs.splitOn '/' := by
  induction cs with
  | nil => rfl
  | cons c cs ih =>
    rw [split, List.splitOn_cons_eq_if_modifyHead, ih]
    by_cases hc : c = '/'
    · rw [if_pos hc, if_pos (beq_iff_eq.mpr hc)]
    · rw [if_neg hc, if_neg (mt beq_iff_eq.mp hc)]
      cases hsplit : cs.splitOn '/' with
      | nil => exact (List.splitOn_ne_nil '/' cs hsplit).elim
      | cons first others => rfl

/-- The steps of two paths that are joined by a slash are those of the one and then those of the
other. -/
theorem steps_append_slash (path path' : String) :
    steps (path ++ "/" ++ path') = steps path ++ steps path' := by
  have htext : (path ++ "/" ++ path').toList = path.toList ++ '/' :: path'.toList := by
    rw [String.toList_append, String.toList_append, List.append_assoc]
    rfl
  unfold steps
  rw [htext, split_eq_splitOn, split_eq_splitOn, split_eq_splitOn,
    List.splitOn_append_cons_self, List.map_append]

/-- A text without a slash is a single step. -/
theorem steps_of_noSlash {name : String} (h : '/' ∉ name.toList) : steps name = [name] := by
  rw [steps, split_eq_splitOn, List.splitOn_eq_singleton h, List.map_singleton,
    String.ofList_toList]

/-- A path is given by its steps. -/
theorem ofSteps_steps (path : String) : ofSteps (steps path) = path := by
  have hlists : (steps path).map String.toList = path.toList.splitOn '/' := by
    rw [steps, split_eq_splitOn, List.map_map]
    exact (List.map_congr_left fun cs _ => String.toList_ofList).trans (List.map_id _)
  rw [ofSteps, hlists, List.intercalate_splitOn, String.ofList_toList]

/-- Paths with the same steps are the same. -/
theorem steps_injective : Function.Injective steps :=
  Function.LeftInverse.injective ofSteps_steps

/-- Names without a slash in them are the steps of the path that is made of them. -/
theorem steps_ofSteps {steps' : List String} (hne : steps' ≠ [])
    (h : ∀ step ∈ steps', '/' ∉ step.toList) : steps (ofSteps steps') = steps' := by
  have hlists : ∀ cs ∈ steps'.map String.toList, '/' ∉ cs := by
    intro cs hcs
    obtain ⟨step, hstep, rfl⟩ := List.mem_map.mp hcs
    exact h step hstep
  rw [steps, ofSteps, String.toList_ofList, split_eq_splitOn,
    List.splitOn_intercalate '/' hlists (mt List.map_eq_nil_iff.mp hne), List.map_map]
  exact (List.map_congr_left fun step _ => String.ofList_toList).trans (List.map_id _)

/-- No step has a slash in it. -/
theorem noSlash_of_mem_steps {path step : String} (h : step ∈ steps path) :
    '/' ∉ step.toList := by
  have hparts : ∀ cs : List Char, ∀ part ∈ split cs, '/' ∉ part := by
    -- By induction on the characters, of which a slash begins a new part.
    intro cs
    induction cs with
    | nil =>
      rintro part (_ | ⟨_, ⟨⟩⟩)
      exact List.not_mem_nil
    | cons c cs ih =>
      intro part hpart
      rw [split] at hpart
      split_ifs at hpart with hc
      · rcases List.mem_cons.mp hpart with rfl | hpart
        · exact List.not_mem_nil
        · exact ih part hpart
      -- A character that is no slash goes to the first part, and the others stay as they are.
      have hfirst : ∀ first, '/' ∉ first → '/' ∉ c :: first := fun first hfirst hmem => by
        rcases List.mem_cons.mp hmem with rfl | hmem
        · exact hc rfl
        · exact hfirst hmem
      split at hpart
      next =>
        rw [List.mem_singleton.mp hpart]
        exact hfirst [] List.not_mem_nil
      next first others hsplit =>
        rw [hsplit] at ih
        rcases List.mem_cons.mp hpart with rfl | hpart
        · exact hfirst first (ih first (List.mem_cons_self ..))
        · exact ih part (List.mem_cons_of_mem first hpart)
  obtain ⟨part, hpart, rfl⟩ := List.mem_map.mp h
  rw [String.toList_ofList]
  exact hparts path.toList part hpart

/-! ## Joining -/

/-- What is joined to a directory comes after steps that depend on the directory only. -/
theorem exists_steps_join (directory : String) :
    ∃ before, ∀ name, steps (join directory name) = before ++ steps name := by
  -- A directory that ends with a slash needs none before the name.
  by_cases hslash : directory.toList.getLast? = some '/'
  · obtain ⟨outer, houter⟩ : ∃ outer : String, directory = outer ++ "/" := by
      refine ⟨String.ofList directory.toList.dropLast, String.toList_injective ?_⟩
      rw [String.toList_append, String.toList_ofList]
      exact (List.dropLast_append_getLast? '/' hslash).symm
    refine ⟨steps outer, fun name => ?_⟩
    rw [join, if_pos hslash, houter, steps_append_slash]
  · refine ⟨steps directory, fun name => ?_⟩
    rw [join, if_neg hslash, steps_append_slash]

/-- A path starts at the root if its first character is a slash. -/
theorem start_eq (place : List String) (path : String) :
    start place path = if path.toList.head? = some '/' then [] else place := by
  unfold start
  split
  next h => rw [h]; rfl
  next h =>
    rw [if_neg]
    intro hhead
    obtain ⟨cs, hcs⟩ := List.head?_eq_some_iff.mp hhead
    exact h cs hcs

/-- All that is joined to a directory is followed from the same place. -/
theorem start_join (place : List String) (directory name name' : String) :
    start place (join directory name) = start place (join directory name') := by
  -- The first character is that of the directory, or the slash after it if it is empty.
  have hhead : ∀ name, (join directory name).toList.head? =
      directory.toList.head?.or (some '/') := by
    intro name
    unfold join
    split
    next h =>
      cases hchars : directory.toList with
      | nil =>
        rw [hchars] at h
        cases h
      | cons c cs =>
        rw [String.toList_append, hchars]
        rfl
    next h =>
      rw [String.toList_append, String.toList_append, List.append_assoc, List.head?_append]
      rfl
  rw [start_eq, start_eq, hhead, hhead]

/-! ## The end of a path -/

/-- A name as entries of a directory have them. -/
structure IsName (name : String) : Prop where
  /-- It leads somewhere. -/
  isIdle : Path.isIdle name = false
  /-- It does not lead up. -/
  ne_up : name ≠ ".."
  /-- It is a single step. -/
  noSlash : '/' ∉ name.toList

/-- The last step of a path is the name at its end if it is a name. -/
theorem fileName?_eq {path name : String} {before : List String}
    (hsteps : steps path = before ++ [name]) (hname : IsName name) :
    fileName? path = some name := by
  rw [fileName?, names, hsteps, List.filter_append]
  simp [hname.isIdle, hname.ne_up]

/-- Without the name at its end, a path has the steps before that name up to some idle ones. -/
theorem exists_steps_parent {path name : String} {before : List String}
    (hsteps : steps path = before ++ [name]) (hname : IsName name) :
    ∃ kept idle idle', before = kept ++ idle ∧ steps (parent path) = kept ++ idle' ∧
      (∀ step ∈ idle, isIdle step) ∧ ∀ step ∈ idle', isIdle step := by
  -- The parent drops the name and, from there on, all idle steps before it.
  have hparent : parent path = ofSteps (before.rdropWhile isIdle) := by
    rw [parent, hsteps, List.reverse_append, List.reverse_singleton, List.singleton_append,
      List.dropWhile_cons_of_neg (by rw [hname.isIdle]; decide), List.drop_one, List.tail_cons]
    rfl
  have hbefore := before.rdropWhile_append_rtakeWhile (p := isIdle)
  have hidle : ∀ step ∈ before.rtakeWhile isIdle, isIdle step := fun _ => List.mem_rtakeWhile_imp
  rcases hkept : before.rdropWhile isIdle with _ | ⟨step, kept⟩
  · -- The parent is the empty path, which has one step.
    refine ⟨[], before.rtakeWhile isIdle, [""], ?_, ?_, hidle, ?_⟩
    · rw [← hkept, hbefore]
    · rw [hparent, hkept]
      rfl
    · exact fun step hstep => List.mem_singleton.mp hstep ▸ rfl
  -- Otherwise the steps that are kept are those of the path that is made of them.
  · refine ⟨step :: kept, before.rtakeWhile isIdle, [], ?_, ?_, hidle, fun _ h => nomatch h⟩
    · rw [← hkept, hbefore]
    · rw [hparent, hkept, List.append_nil, steps_ofSteps (List.cons_ne_nil step kept)]
      intro step' hstep'
      have hmem : step' ∈ before := by
        rw [← hbefore, hkept]
        exact List.mem_append_left _ hstep'
      have hpath : step' ∈ steps path := by
        rw [hsteps]
        exact List.mem_append_left _ hmem
      exact noSlash_of_mem_steps hpath

/-! ## Stems and extensions -/

/-- A name is its stem, or its stem followed by a point and its extension. -/
theorem splitName_cases (name : List Char) : splitName name = (name, none) ∨
    ∃ stem extension, splitName name = (stem, some extension) ∧
      name = stem ++ '.' :: extension := by
  unfold splitName
  split
  next point c stem hpoint =>
    refine .inr ⟨_, _, rfl, ?_⟩
    have hdot : point = '.' := by
      have hhead := List.head?_dropWhile_not (· ≠ '.') name.reverse
      rw [hpoint] at hhead
      simpa using hhead
    -- The name is searched from its end, so what comes before the point is the extension reversed.
    have hreverse := List.takeWhile_append_dropWhile (p := (· ≠ '.')) (l := name.reverse)
    rw [hpoint, hdot] at hreverse
    have hname := congrArg List.reverse hreverse
    rw [List.reverse_reverse, List.reverse_append, List.reverse_cons, List.append_assoc] at hname
    exact hname.symm
  next => exact .inl rfl

/-- A name with an extension is its stem, a dot and the extension. -/
theorem eq_of_extension? {name extension : String} (h : extension? name = some extension) :
    name = stem name ++ "." ++ extension := by
  apply String.toList_injective
  unfold extension? at h
  unfold stem
  rcases splitName_cases name.toList with hsplit | ⟨front, back, hsplit, hname⟩
  · rw [hsplit] at h
    cases h
  · rw [hsplit] at h ⊢
    cases h
    simp only [String.toList_append, String.toList_ofList, List.append_assoc]
    exact hname

/-- The stem of a name has no slash if the name has none. -/
theorem noSlash_stem {name : String} (h : '/' ∉ name.toList) : '/' ∉ (stem name).toList := by
  rw [stem, String.toList_ofList]
  rcases splitName_cases name.toList with hsplit | ⟨front, back, hsplit, hname⟩
  · rw [hsplit]
    exact h
  · rw [hsplit]
    exact fun hfront => h (hname ▸ List.mem_append_left _ hfront)

end Path

end HandTemplate
