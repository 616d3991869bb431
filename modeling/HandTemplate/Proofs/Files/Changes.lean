import Mathlib
import HandTemplate.FileTree
import HandTemplate.Proofs.Files.Steps
import HandTemplate.Proofs.Outcome

/-!
# Changes of a file tree

Making a directory and writing a file leave every other file as it is, and every path that could be
followed before still leads to the same place. Main statement: `write_eq_ok`.
-/

namespace HandTemplate

/-- Storing a value changes what is found under its own name only. -/
theorem Record.lookup_store {α : Type} (name other : String) (value : α)
    (entries : List (String × α)) : lookup other (store name value entries) =
      if name = other then some value else lookup other entries :=
  get?_insert ⟨entries⟩ name other value

namespace FileTree

variable {α : Type}

/-! ## Nodes -/

/-- What stands at the end of two paths in a row is found by taking one after the other. -/
theorem get?_append (before after : List String) (tree : FileTree α) :
    tree.get? (before ++ after) = (tree.get? before).bind (get? after) := by
  induction before generalizing tree with
  | nil => rfl
  | cons name before ih =>
    rw [List.cons_append, get?, get?, Option.bind_assoc]
    exact congrArg (Option.bind _) (funext ih)

/-- Where there is a directory, there is something. -/
theorem isSome_of_hasDirectory {tree : FileTree α} {names : List String}
    (h : tree.hasDirectory names) : (tree.get? names).isSome := by
  unfold hasDirectory at h
  cases hnode : tree.get? names with
  | none => rw [hnode] at h; cases h
  | some node => rfl

/-- What is below something is in a directory. -/
theorem hasDirectory_of_isSome {tree : FileTree α} {names after : List String} {name : String}
    (h : (tree.get? (names ++ name :: after)).isSome) : tree.hasDirectory names := by
  rw [get?_append] at h
  unfold hasDirectory
  cases hnode : tree.get? names with
  | none => rw [hnode] at h; cases h
  | some node =>
    cases node with
    | file content => rw [hnode] at h; cases h
    | directory entries => rfl

/-- An entry after a node is inserted: the one on the way to the node is another one, and every
other entry is the same. -/
theorem child?_insert (node : FileTree α) (name other : String) (names : List String)
    (tree : FileTree α) : (insert node (name :: names) tree).child? other =
      if name = other then some (insert node names ((tree.child? name).getD (directory [])))
      else tree.child? other := by
  cases tree with
  | file content =>
    rw [insert, child?, Record.lookup]
    rfl
  | directory entries => exact Record.lookup_store ..

/-- What is put at a path is found there. -/
theorem get?_insert_self (node : FileTree α) (names : List String) (tree : FileTree α) :
    (insert node names tree).get? names = some node := by
  induction names generalizing tree with
  | nil => rw [insert, get?]
  | cons name names ih => rw [get?, child?_insert, if_pos rfl, Option.bind_some, ih]

/-- What is neither on the way to an inserted node nor below it is left as it is. -/
theorem get?_insert_apart {node : FileTree α} {names other : List String}
    (h : ¬ names <+: other) (h' : ¬ other <+: names) (tree : FileTree α) :
    (insert node names tree).get? other = tree.get? other := by
  -- By induction on the names that lead to the node, as long as the others agree with them.
  induction names generalizing tree other with
  | nil => exact absurd List.nil_prefix h
  | cons name names ih =>
    cases other with
    | nil => exact absurd List.nil_prefix h'
    | cons first other =>
      rw [get?, get?, child?_insert]
      split_ifs with hname
      · subst hname
        rw [List.cons_prefix_cons] at h h'
        rw [Option.bind_some, ih (fun hp => h ⟨rfl, hp⟩) fun hp => h' ⟨rfl, hp⟩]
        cases tree.child? name with
        | some child => rfl
        | none =>
          -- The way to the node is new from here on, and the other names leave it below.
          cases other with
          | nil => exact absurd ⟨rfl, List.nil_prefix⟩ h'
          | cons => rfl
      · rfl

/-- On the way to an inserted node there are directories. -/
theorem hasDirectory_insert {node : FileTree α} {names : List String} (name : String)
    (after : List String) (tree : FileTree α) :
    (insert node (names ++ name :: after) tree).hasDirectory names := by
  exact hasDirectory_of_isSome (by rw [get?_insert_self]; rfl)

/-! ## Files -/

/-- The content of the file to which some names lead. -/
def fileAt (tree : FileTree α) (names : List String) : Option α :=
  match tree.get? names with
  | some (file content) => some content
  | _ => none

/-- A directory is no file. -/
theorem fileAt_eq_none_of_hasDirectory {tree : FileTree α} {names : List String}
    (h : tree.hasDirectory names) : tree.fileAt names = none := by
  unfold fileAt
  unfold hasDirectory at h
  cases hnode : tree.get? names with
  | none => rfl
  | some node =>
    cases node with
    | file content => rw [hnode] at h; cases h
    | directory entries => rfl

/-- A tree that was changed so that no path leads elsewhere: what was there is still there, and a
directory is still one. -/
structure Grows (tree tree' : FileTree α) : Prop where
  /-- A directory is still one. -/
  hasDirectory {names : List String} : tree.hasDirectory names → tree'.hasDirectory names
  /-- What was there is still there. -/
  isSome {names : List String} : (tree.get? names).isSome → (tree'.get? names).isSome

/-- A tree that is left as it is has grown. -/
theorem Grows.refl (tree : FileTree α) : Grows tree tree := ⟨id, id⟩

/-- A tree that has grown twice has grown. -/
theorem Grows.trans {tree tree' tree'' : FileTree α} (h : Grows tree tree')
    (h' : Grows tree' tree'') : Grows tree tree'' :=
  ⟨h'.hasDirectory ∘ h.hasDirectory, h'.isSome ∘ h.isSome⟩

/-- A path is at or below another one, above it, or apart from it. -/
theorem prefix_cases (names other : List String) :
    (∃ after, other = names ++ after) ∨ (∃ name after, names = other ++ name :: after) ∨
      ¬ names <+: other ∧ ¬ other <+: names := by
  by_cases hbelow : names <+: other
  · obtain ⟨after, rfl⟩ := hbelow
    exact .inl ⟨after, rfl⟩
  by_cases habove : other <+: names
  · obtain ⟨after, rfl⟩ := habove
    cases after with
    | nil => exact absurd (by rw [List.append_nil]) hbelow
    | cons name after => exact .inr (.inl ⟨name, after, rfl⟩)
  · exact .inr (.inr ⟨hbelow, habove⟩)

section
variable {tree : FileTree α} {names : List String} (hnew : tree.hasDirectory names = false)
include hnew

/-- Nothing is below what is no directory. -/
theorem get?_below (name : String) (after : List String) :
    tree.get? (names ++ name :: after) = none := by
  by_contra hsome
  have hdirectory := hasDirectory_of_isSome (Option.isSome_iff_ne_none.mpr hsome)
  rw [hnew] at hdirectory
  cases hdirectory

/-- Where there is no directory, a node can be inserted. -/
theorem grows_insert (node : FileTree α) : Grows tree (insert node names tree) where
  hasDirectory {other} h := by
    -- Another place is below the node, above it, or apart from both.
    rcases prefix_cases names other with ⟨after, rfl⟩ | ⟨name, after, rfl⟩ | ⟨hbelow, habove⟩
    · cases after with
      | nil =>
        rw [List.append_nil, hnew] at h
        cases h
      | cons name after =>
        rw [hasDirectory, get?_below hnew] at h
        cases h
    · exact hasDirectory_insert name after tree
    · rwa [hasDirectory, get?_insert_apart hbelow habove]
  isSome {other} h := by
    rcases prefix_cases names other with ⟨after, rfl⟩ | ⟨name, after, rfl⟩ | ⟨hbelow, habove⟩
    · cases after with
      | nil =>
        rw [List.append_nil, get?_insert_self]
        rfl
      | cons name after =>
        rw [get?_below hnew] at h
        cases h
    · exact isSome_of_hasDirectory (hasDirectory_insert name after tree)
    · rwa [get?_insert_apart hbelow habove]

/-- Inserting a node with nothing below it changes the file at its own place only, if that is in a
directory. -/
theorem fileAt_insert {node : FileTree α}
    (hnode : node = directory [] ∨ ∃ content, node = file content)
    (hparent : tree.hasDirectory names.dropLast) (other : List String) :
    (insert node names tree).fileAt other =
      if other = names then node.fileAt [] else tree.fileAt other := by
  rcases prefix_cases names other with ⟨after, rfl⟩ | ⟨name, after, rfl⟩ | ⟨hbelow, habove⟩
  · cases after with
    | nil =>
      rw [List.append_nil, if_pos rfl, fileAt, get?_insert_self]
      rfl
    | cons name after =>
      have hne : names ++ name :: after ≠ names := fun h =>
        List.cons_ne_nil name after (List.append_right_eq_self.mp h)
      have hnone : node.get? (name :: after) = none := by
        rcases hnode with rfl | ⟨content, rfl⟩ <;> rfl
      rw [if_neg hne, fileAt, fileAt, get?_below hnew, get?_append, get?_insert_self,
        Option.bind_some, hnone]
  · have hne : other ≠ other ++ name :: after := fun h =>
      List.cons_ne_nil name after (List.append_right_eq_self.mp h.symm)
    -- Above the node there was a directory before, so the node does not take a file's place.
    have hdirectory : tree.hasDirectory other := by
      rw [List.dropLast_append_of_ne_nil (List.cons_ne_nil name after)] at hparent
      cases after with
      | nil => simpa using hparent
      | cons => exact hasDirectory_of_isSome (isSome_of_hasDirectory hparent)
    rw [if_neg hne, fileAt_eq_none_of_hasDirectory hdirectory,
      fileAt_eq_none_of_hasDirectory (hasDirectory_insert name after tree)]
  · have hne : other ≠ names := fun h => hbelow (by rw [h])
    rw [if_neg hne, fileAt, fileAt, get?_insert_apart hbelow habove]

end

/-! ## Following paths -/

/-- Two paths in a row are followed one after the other. -/
theorem follow_append (tree : FileTree α) (place before after : List String) :
    tree.follow place (before ++ after) =
      tree.follow place before >>= fun names => tree.follow names after := by
  induction before generalizing place with
  | nil => rfl
  | cons step before ih =>
    rw [List.cons_append, follow, follow]
    split_ifs
    · rfl
    · exact ih _
    · exact ih _
    · rfl
    · exact ih _
    · rfl

/-- Idle steps lead nowhere from a directory. -/
theorem follow_idle {tree : FileTree α} {names : List String} (h : tree.hasDirectory names)
    {steps : List String} (hsteps : ∀ step ∈ steps, Path.isIdle step) :
    tree.follow names steps = .ok names := by
  induction steps with
  | nil => rfl
  | cons step steps ih =>
    rw [follow, h, if_neg (by decide), if_pos (hsteps step (List.mem_cons_self ..))]
    exact ih fun other hother => hsteps other (List.mem_cons_of_mem step hother)

/-- Some steps and idle ones after them lead to a directory whatever the idle ones are. -/
theorem follow_change_idle {tree : FileTree α} {place names kept idle idle' : List String}
    (hidle : ∀ step ∈ idle, Path.isIdle step) (hidle' : ∀ step ∈ idle', Path.isIdle step)
    (hdirectory : tree.hasDirectory names) (h : tree.follow place (kept ++ idle) = .ok names) :
    tree.follow place (kept ++ idle') = .ok names := by
  rw [follow_append] at h ⊢
  obtain ⟨middle, hkept, hmiddle⟩ := Outcome.bind_eq_ok.mp h
  -- The idle steps stay where the ones before them lead.
  have hsame : middle = names := by
    clear h hkept
    induction idle with
    | nil =>
      cases hmiddle
      rfl
    | cons step idle ih =>
      rw [follow, if_pos (hidle step (List.mem_cons_self ..))] at hmiddle
      split_ifs at hmiddle
      exact ih (fun other hother => hidle other (List.mem_cons_of_mem step hother)) hmiddle
  rw [hkept, hsame]
  exact follow_idle hdirectory hidle'

/-- A step that is a name leads to the entry of that name, if there is one. -/
theorem follow_name {tree : FileTree α} {names names' steps : List String} {name : String}
    (hname : Path.IsName name) (h : tree.follow names (name :: steps) = .ok names') :
    tree.follow (names ++ [name]) steps = .ok names' := by
  rw [follow, hname.isIdle, if_neg Bool.false_ne_true, if_neg hname.ne_up] at h
  split_ifs at h
  exact h

/-- Names are followed one by one. -/
theorem follow_names {tree : FileTree α} {names names' steps : List String}
    (hsteps : ∀ step ∈ steps, Path.IsName step) (h : tree.follow names steps = .ok names') :
    names' = names ++ steps := by
  induction steps generalizing names with
  | nil =>
    cases h
    exact (List.append_nil _).symm
  | cons name steps ih =>
    have hnext := follow_name (hsteps name (List.mem_cons_self ..)) h
    rw [ih (fun step hstep => hsteps step (List.mem_cons_of_mem name hstep)) hnext,
      List.append_assoc, List.singleton_append]

/-- A path that can be followed leads to the same place after the tree has grown. -/
theorem Grows.follow {tree tree' : FileTree α} (h : Grows tree tree') {names names' : List String}
    {steps : List String} (hfollow : tree.follow names steps = .ok names') :
    tree'.follow names steps = .ok names' := by
  induction steps generalizing names with
  | nil => exact hfollow
  | cons step steps ih =>
    rw [FileTree.follow] at hfollow ⊢
    split_ifs at hfollow with hdirectory hidle hup hlong hsome
    all_goals
      rw [Bool.not_eq_true', Bool.not_eq_false] at hdirectory
      rw [h.hasDirectory hdirectory, if_neg (by decide)]
    · rw [if_pos hidle]
      exact ih hfollow
    · rw [if_neg hidle, if_pos hup]
      exact ih hfollow
    · rw [if_neg hidle, if_neg hup, if_neg hlong, if_pos (h.isSome hsome)]
      exact ih hfollow

/-! ## Reading -/

/-- A path gives the content of the file to which it leads. -/
theorem read_eq_ok {tree : FileTree α} {place : List String} {path : String} {content : α} :
    tree.read place path = .ok content ↔ Path.isTooLong path = false ∧
      ∃ names, tree.follow (Path.start place path) (Path.steps path) = .ok names ∧
        tree.fileAt names = some content := by
  constructor
  · intro h
    -- Reading is following the path and looking at what is there.
    obtain ⟨node, haccess, hnode⟩ := Outcome.bind_eq_ok.mp h
    unfold access at haccess
    split_ifs at haccess with hlong
    obtain ⟨names, hfollow, hget⟩ := Outcome.bind_eq_ok.mp haccess
    refine ⟨Bool.not_eq_true _ ▸ hlong, names, hfollow, ?_⟩
    unfold fileAt
    split at hget
    next found hfound =>
      cases hget
      rw [hfound]
      cases node with
      | file c =>
        cases hnode
        rfl
      | directory entries => cases hnode
    next => cases hget
  -- The file that is there is what the path is found to lead to.
  · rintro ⟨hlong, names, hfollow, hfile⟩
    unfold fileAt at hfile
    split at hfile
    next c hget =>
      cases hfile
      rw [read, access, hlong, if_neg Bool.false_ne_true, hfollow]
      simp only [bind, Except.bind, hget]
      rfl
    next => cases hfile

/-! ## Making directories and writing files -/

/-- A tree after some directories were made. -/
structure Extends (tree tree' : FileTree α) : Prop extends Grows tree tree' where
  /-- The files are the same. -/
  fileAt (names : List String) : tree'.fileAt names = tree.fileAt names

/-- A tree that is left as it is has been extended. -/
theorem Extends.refl (tree : FileTree α) : Extends tree tree := ⟨.refl tree, fun _ => rfl⟩

/-- A tree that has been extended twice has been extended. -/
theorem Extends.trans {tree tree' tree'' : FileTree α} (h : Extends tree tree')
    (h' : Extends tree' tree'') : Extends tree tree'' :=
  ⟨h.toGrows.trans h'.toGrows, fun names => (h'.fileAt names).trans (h.fileAt names)⟩

/-- The directory around a file is the one to which the steps before its name lead, for a path that
is not too long. -/
theorem enclosing_eq_ok {tree : FileTree α} {place names : List String} {path : String}
    (h : tree.enclosing place path = .ok names) : Path.isTooLong path = false ∧
      tree.follow (Path.start place path) (Path.steps (Path.parent path)) = .ok names ∧
      tree.hasDirectory names := by
  unfold enclosing at h
  split_ifs at h with hlong
  obtain ⟨names', hfollow, hend⟩ := Outcome.bind_eq_ok.mp h
  split_ifs at hend with hdirectory
  cases hend
  exact ⟨Bool.not_eq_true _ ▸ hlong, hfollow, hdirectory⟩

/-- Making a directory leaves all files as they are. -/
theorem extends_makeDirectory {tree tree' : FileTree α} {place : List String} {path : String}
    (h : tree.makeDirectory place path = .ok tree') : Extends tree tree' := by
  obtain ⟨names, henclosing, hmake⟩ := Outcome.bind_eq_ok.mp h
  obtain ⟨-, -, hdirectory⟩ := enclosing_eq_ok henclosing
  -- If there is something already, it is left as it is or the directory is refused.
  split at hmake
  next =>
    cases hmake
    exact .refl tree
  next name _ =>
    unfold makeIn at hmake
    split_ifs at hmake
    split at hmake
    next =>
      cases hmake
      exact .refl tree
    next => cases hmake
    next hnone =>
      cases hmake
      -- A new directory has no file in it.
      have hnew : tree.hasDirectory (names ++ [name]) = false := by rw [hasDirectory, hnone]; rfl
      refine ⟨grows_insert hnew _, fun other => ?_⟩
      rw [fileAt_insert hnew (.inl rfl) (by rwa [List.dropLast_concat])]
      split_ifs with hother
      · rw [hother, fileAt, fileAt, hnone]
        rfl
      · rfl

/-- Writing a file at the end of a path changes that file only. -/
theorem write_eq_ok {tree tree' : FileTree α} {place before : List String} {path name : String}
    {content : α} (hsteps : Path.steps path = before ++ [name]) (hname : Path.IsName name)
    (h : tree.write place path content = .ok tree') :
    Grows tree tree' ∧ Path.isTooLong path = false ∧
      ∃ names, tree'.follow (Path.start place path) (Path.steps path) = .ok names ∧
        ∀ other, tree'.fileAt other =
          if other = names then some content else tree.fileAt other := by
  obtain ⟨names, henclosing, hwrite⟩ := Outcome.bind_eq_ok.mp h
  -- The name is looked for in the directory to which the steps before it lead.
  obtain ⟨hlong, hparent, hdirectory⟩ := enclosing_eq_ok henclosing
  rw [Path.fileName?_eq hsteps hname] at hwrite
  simp only [writeIn] at hwrite
  split_ifs at hwrite with hlongName hnew
  cases hwrite
  rw [Bool.not_eq_true] at hnew
  have hgrows := grows_insert hnew (file content)
  refine ⟨hgrows, hlong, names ++ [name], ?_, fun other => ?_⟩
  · -- The path goes to its parent first, with other idle steps in between, and then to its name.
    obtain ⟨kept, idle, idle', rfl, hparentSteps, hidle, hidle'⟩ :=
      Path.exists_steps_parent hsteps hname
    rw [hparentSteps] at hparent
    have hbefore := hgrows.follow (follow_change_idle hidle' hidle hdirectory hparent)
    rw [hsteps, follow_append, hbefore]
    change FileTree.follow _ names [name] = _
    rw [follow, hgrows.hasDirectory hdirectory, if_neg (by decide), hname.isIdle,
      if_neg Bool.false_ne_true, if_neg hname.ne_up, if_neg hlongName, get?_insert_self]
    rfl
  · rw [fileAt_insert hnew (.inr ⟨content, rfl⟩) (by rwa [List.dropLast_concat])]
    rfl

end FileTree

end HandTemplate
