import Mathlib
import HandTemplate.Proofs.Batch.Delivery
import HandTemplate.Proofs.Files.Listing

/-!
# Selecting templates

Selecting and reading templates leaves a session as it is. The product of each selected template
goes to a file that is named below the directory for output. Two templates from one directory have
the same file only if they are called `..mtl` and `...mtl`.
-/

namespace HandTemplate

namespace CommandLine

/-! ## Names of products -/

/-- What follows a stem and a point makes a name of it that cannot be mistaken for a step. -/
theorem isName_append_word {stem : String} (h : '/' ∉ stem.toList) (product : Product) :
    Path.IsName (stem ++ "." ++ product.word) := by
  have hlength : 3 ≤ (stem ++ "." ++ product.word).length := by
    have hword : 3 ≤ product.word.length := by cases product <;> decide
    rw [String.length_append, String.length_append]
    omega
  -- All steps that are no names are shorter than the word of a product.
  have hne : ∀ step : String, step.length < 3 → stem ++ "." ++ product.word ≠ step := by
    rintro step hstep rfl
    omega
  refine ⟨?_, hne ".." (by decide), ?_⟩
  · simp only [Path.isIdle, hne "" (by decide), hne "." (by decide), decide_false, Bool.or_self]
  · rw [String.toList_append, String.toList_append, List.mem_append, List.mem_append]
    rintro ((hstem | hpoint) | hword)
    · exact h hstem
    · cases hpoint with
      | tail _ h => cases h
    · cases product <;> revert hword <;> decide

/-- The name of a product gives its stem back. -/
theorem append_word_injective (product : Product) :
    Function.Injective fun stem : String => stem ++ "." ++ product.word := by
  intro stem stem' h
  have hchars := congrArg String.toList h
  simp only [String.toList_append, List.append_assoc, List.append_cancel_right_eq] at hchars
  exact String.toList_injective hchars

/-- The name of a product has no slash if the name of its template has none. -/
theorem noSlash_productName {name : String} (h : '/' ∉ name.toList) :
    '/' ∉ (productName name).toList := by
  unfold productName
  split_ifs
  · decide
  · exact Path.noSlash_stem h

/-- The path of a product consists of names below the directory for output. -/
def Selected.Named (selected : Selected) : Prop :=
  ∀ product : Product, ∃ before name,
    Path.steps (selected.output ++ "." ++ product.word) = before ++ [name] ∧
      ∀ step ∈ before ++ [name], Path.IsName step

/-- The template that a path stands for is named by the end of the path. -/
theorem named_selectFile (path : String) : (selectFile path).Named := by
  intro product
  have hstem : '/' ∉ (((Path.fileName? path).map Path.stem).getD "template").toList := by
    cases hname : Path.fileName? path with
    | none => decide
    | some name =>
      have hlast : (Path.names path).getLast? = some name := (Option.filter_eq_some_iff.mp hname).1
      have hmem : name ∈ Path.steps path :=
        List.mem_of_mem_filter (List.mem_of_mem_getLast? (Option.mem_def.mpr hlast))
      exact Path.noSlash_stem (Path.noSlash_of_mem_steps hmem)
  have hname := isName_append_word hstem product
  refine ⟨[], _, Path.steps_of_noSlash hname.noSlash, ?_⟩
  rintro step (_ | ⟨_, ⟨⟩⟩)
  exact hname

/-- The steps to the product of a template below a directory. -/
theorem steps_selectBelow (directory : String) {last : String} {names : List String}
    (hnames : ∀ name ∈ names, '/' ∉ name.toList) (hlast : '/' ∉ last.toList) (product : Product) :
    Path.steps ((selectBelow directory (names ++ [last])).output ++ "." ++ product.word) =
      names ++ [productName last ++ "." ++ product.word] := by
  have hname := isName_append_word (noSlash_productName hlast) product
  unfold selectBelow
  rw [List.dropLast_concat, List.getLast?_concat]
  change Path.steps (String.intercalate "/" (names ++ [productName last]) ++ "." ++ _) = _
  -- By induction on the names of the directories in between.
  induction names with
  | nil =>
    rw [List.nil_append, String.intercalate_singleton]
    exact Path.steps_of_noSlash hname.noSlash
  | cons first names ih =>
    have hfirst := Path.steps_of_noSlash (hnames first (List.mem_cons_self ..))
    rw [List.cons_append, String.intercalate_cons_of_ne_nil (by simp), String.append_assoc,
      String.append_assoc, Path.steps_append_slash, hfirst, ← String.append_assoc,
      ih fun name hname => hnames name (List.mem_cons_of_mem first hname)]
    rfl

/-- A template below a directory is named by the last of the names that lead to it. -/
theorem named_selectBelow {directory last : String} {names : List String}
    (hnames : ∀ name ∈ names ++ [last], Path.IsName name) :
    (selectBelow directory (names ++ [last])).Named := by
  intro product
  have hlast := (hnames last (List.mem_append_right _ (List.mem_singleton_self _))).noSlash
  refine ⟨names, _, steps_selectBelow directory (fun name hname =>
    (hnames name (List.mem_append_left _ hname)).noSlash) hlast product, fun step hstep => ?_⟩
  rcases List.mem_append.mp hstep with hstep | hstep
  · exact hnames step (List.mem_append_left _ hstep)
  · rw [List.mem_singleton.mp hstep]
    exact isName_append_word (noSlash_productName hlast) product

/-! ## Templates of a directory -/

/-- The paths of the templates below a directory, from that directory. -/
def templateNames (directory : String) (tree : FileTree Unit) : List (List String) :=
  (tree.files.map Prod.fst).filter fun names =>
    names.getLast?.any isSelectable && !Path.isTooLong (selectBelow directory names).path

/-- The templates below a directory are those at the paths of names that are listed. -/
theorem templatesBelow_eq (directory : String) (tree : FileTree Unit) :
    templatesBelow directory tree = (templateNames directory tree).map (selectBelow directory) := by
  unfold templatesBelow templateNames
  rw [List.filter_map, List.filter_filter]
  congr 1
  apply List.filter_congr
  intro names _
  exact Bool.and_comm ..

/-- The path of a template ends with a name that may be selected. -/
theorem exists_of_mem_templateNames {directory : String} {tree : FileTree Unit}
    {names : List String} (h : names ∈ templateNames directory tree) :
    ∃ before last, names = before ++ [last] ∧ isSelectable last = true ∧
      names ∈ tree.files.map Prod.fst := by
  obtain ⟨hmem, hcondition⟩ := List.mem_filter.mp h
  rw [Bool.and_eq_true] at hcondition
  obtain ⟨last, hlast, hselectable⟩ := (Option.any_eq_true _ _).mp hcondition.1
  exact ⟨names.dropLast, last, (List.dropLast_append_getLast? last hlast).symm, hselectable, hmem⟩

/-- What is selected from a proper directory has a product whose path consists of names. -/
theorem named_templatesBelow {directory : String} {tree : FileTree Unit} (h : tree.Proper) :
    ∀ selected ∈ templatesBelow directory tree, selected.Named := by
  intro selected hselected
  rw [templatesBelow_eq] at hselected
  obtain ⟨names, hnames, rfl⟩ := List.mem_map.mp hselected
  obtain ⟨before, last, rfl, -, hfile⟩ := exists_of_mem_templateNames hnames
  obtain ⟨found, hfound, heq⟩ := List.mem_map.mp hfile
  exact named_selectBelow (heq ▸ h.isName found hfound)

/-! ## Reading in a session -/

/-- A directory of the tree is found as one, with all that is below it. -/
theorem directory?_of_directory {path : String} {s : Session}
    {entries : List (String × FileTree String)}
    (h : s.tree.access s.place path = .ok (.directory entries)) :
    Host.directory? (m := StateM Session) path s =
      (some (Session.shape (.directory entries)), s) := by
  simp only [Host.directory?, bind, StateT.bind, get, getThe, MonadStateOf.get, StateT.get,
    pure, StateT.pure, h]

/-- Where the tree has no directory, none is found. -/
theorem directory?_of_not {path : String} {s : Session}
    (h : ∀ entries, s.tree.access s.place path ≠ .ok (.directory entries)) :
    Host.directory? (m := StateM Session) path s = (none, s) := by
  -- `h` is what rules the branch of a directory out
  simp only [Host.directory?, bind, StateT.bind, get, getThe, MonadStateOf.get, StateT.get,
    pure, StateT.pure]

/-- The names of a tree are proper ones without the texts of its files too. -/
theorem proper_shape {tree : FileTree String} (h : tree.Proper) : (Session.shape tree).Proper := by
  induction h with
  | file =>
    rw [Session.shape]
    exact .file
  | @directory entries hnames hnodup _ ih =>
    rw [Session.shape]
    refine .directory ?_ (by rwa [List.map_map]) ?_
    · intro entry' hentry'
      obtain ⟨entry, hentry, rfl⟩ := List.mem_map.mp hentry'
      exact hnames entry hentry
    · intro entry' hentry'
      obtain ⟨entry, hentry, rfl⟩ := List.mem_map.mp hentry'
      exact ih entry hentry

/-- Looking for a directory leaves a session as it is, and what is found in a proper tree is
proper. -/
theorem directory?_cases (path : String) (s : Session) :
    Host.directory? (m := StateM Session) path s = (none, s) ∨
      ∃ tree, Host.directory? (m := StateM Session) path s = (some tree, s) ∧
        (s.tree.Proper → tree.Proper) := by
  by_cases h : ∃ entries, s.tree.access s.place path = .ok (.directory entries)
  · obtain ⟨entries, haccess⟩ := h
    -- The tree that is found is part of the session's.
    refine .inr ⟨_, directory?_of_directory haccess, fun hproper => proper_shape ?_⟩
    unfold FileTree.access at haccess
    split_ifs at haccess
    obtain ⟨names, -, hget⟩ := Outcome.bind_eq_ok.mp haccess
    split at hget
    next node hnode =>
      cases hget
      exact hproper.of_get? hnode
    next => cases hget
  · exact .inl (directory?_of_not fun entries haccess => h ⟨entries, haccess⟩)

/-- Selecting templates leaves a session as it is, and in a proper tree their products get paths
that consist of names. -/
theorem select_cases (path : String) (s : Session) :
    ∃ result, select (m := StateM Session) path s = (result, s) ∧
      (s.tree.Proper → ∀ selected, result = .ok selected → ∀ chosen ∈ selected, chosen.Named) := by
  unfold select
  rw [bind_apply]
  -- A path that is no directory stands for itself.
  rcases directory?_cases path s with h | ⟨tree, h, htree⟩
  · rw [h]
    refine ⟨.ok [selectFile path], rfl, ?_⟩
    rintro - _ ⟨⟩ chosen hchosen
    rw [List.mem_singleton.mp hchosen]
    exact named_selectFile path
  -- Below a directory, either some part cannot be searched or the templates are listed.
  · rw [h]
    dsimp only
    cases unsearchable? path tree with
    | some directory => exact ⟨.error _, rfl, fun _ _ h => nomatch h⟩
    | none =>
      refine ⟨.ok (templatesBelow path tree), rfl, ?_⟩
      rintro hproper _ ⟨⟩
      exact named_templatesBelow (htree hproper)

/-- All paths of a command line are looked up without a change of the session, and what they stand
for is named by its path. -/
theorem selectAll_cases (paths : List String) (s : Session) :
    ∃ result, selectAll (m := StateM Session) paths s = (result, s) ∧
      (s.tree.Proper → ∀ selected, result = .ok selected → ∀ chosen ∈ selected, chosen.Named) := by
  -- By induction on the paths, of which the first that fails ends the selection.
  induction paths with
  | nil =>
    refine ⟨.ok [], rfl, ?_⟩
    rintro - _ ⟨⟩ _ h
    cases h
  | cons path paths ih =>
    obtain ⟨others, hothers, hnamed⟩ := ih
    obtain ⟨first, hfirst, hnamedFirst⟩ := select_cases path s
    unfold selectAll
    rw [bind_apply, hfirst]
    cases first with
    | error text => exact ⟨.error text, rfl, fun _ _ h => nomatch h⟩
    | ok first =>
      dsimp only
      rw [bind_apply, hothers]
      refine ⟨_, rfl, fun hproper selected hselected chosen hchosen => ?_⟩
      obtain ⟨rest, rfl, rfl⟩ := Outcome.map_eq_ok.mp hselected
      rcases List.mem_append.mp hchosen with hchosen | hchosen
      · exact hnamedFirst hproper first rfl chosen hchosen
      · exact hnamed hproper rest rfl chosen hchosen

/-- Reading templates leaves a session as it is. -/
theorem readAll_cases (selected : List Selected) (s : Session) :
    ∃ result, readAll (m := StateM Session) selected s = (result, s) ∧
      ∀ jobs, result = .ok jobs → jobs.map (·.toSelected) = selected ∧
        ∀ job ∈ jobs, s.tree.read s.place job.path = .ok job.text := by
  -- By induction on the templates, of which the first that cannot be read ends the reading.
  induction selected with
  | nil =>
    refine ⟨.ok [], rfl, ?_⟩
    rintro _ ⟨⟩
    exact ⟨rfl, fun _ h => nomatch h⟩
  | cons first selected ih =>
    obtain ⟨others, hothers, hread⟩ := ih
    unfold readAll
    rw [bind_apply, readText_apply]
    cases hfirst : s.tree.read s.place first.path with
    | error e => exact ⟨.error _, rfl, fun _ h => nomatch h⟩
    | ok text =>
      dsimp only
      rw [bind_apply, hothers]
      refine ⟨_, rfl, fun jobs hjobs => ?_⟩
      obtain ⟨rest, rfl, rfl⟩ := Outcome.map_eq_ok.mp hjobs
      obtain ⟨hselected, htexts⟩ := hread rest rfl
      refine ⟨by rw [List.map_cons, hselected], fun job hjob => ?_⟩
      rcases List.mem_cons.mp hjob with rfl | hjob
      · exact hfirst
      · exact htexts job hjob

end CommandLine

end HandTemplate
