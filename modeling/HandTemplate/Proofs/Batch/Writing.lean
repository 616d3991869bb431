import Mathlib
import HandTemplate.Proofs.Batch.Fates
import HandTemplate.Proofs.Batch.Selection

/-!
# Writing the products of a run

Products with different paths below the directory for output are different files. So each product is
written once, is the content of its file when the run is over, and no other file is changed. Main
statement: `wroteAll_foldl`.
-/

namespace HandTemplate

namespace CommandLine

/-! ## Paths below the directory for output -/

/-- A path that goes on with names only after a directory. -/
def Below (directory path : String) : Prop :=
  ∃ part before name, path = Path.join directory part ∧ Path.steps part = before ++ [name] ∧
    ∀ step ∈ before ++ [name], Path.IsName step

/-- The file of a job is named below the directory for output. -/
theorem below_target {options : Options} {directory target : String} {job : Job}
    (hdirectory : options.outDir = some directory) (hnamed : job.Named)
    (htarget : target? options job = some target) : Below directory target := by
  obtain ⟨before, name, hsteps, hnames⟩ := hnamed options.product
  unfold target? at htarget
  rw [hdirectory] at htarget
  cases htarget
  exact ⟨_, before, name, rfl, hsteps, hnames⟩

/-- A path below a directory ends with a name. -/
theorem Below.exists_steps {directory path : String} (h : Below directory path) :
    ∃ before name, Path.steps path = before ++ [name] ∧ Path.IsName name := by
  obtain ⟨part, before, name, rfl, hsteps, hnames⟩ := h
  obtain ⟨outer, houter⟩ := Path.exists_steps_join directory
  refine ⟨outer ++ before, name, ?_,
    hnames name (List.mem_append_right _ (List.mem_singleton_self _))⟩
  rw [houter, hsteps, List.append_assoc]

/-- Two paths below a directory that lead to the same place are the same. -/
theorem Below.eq_of_follow {directory path path' : String} (h : Below directory path)
    (h' : Below directory path') {tree : FileTree String} {place names : List String}
    (hfollow : tree.follow (Path.start place path) (Path.steps path) = .ok names)
    (hfollow' : tree.follow (Path.start place path') (Path.steps path') = .ok names) :
    path = path' := by
  obtain ⟨part, before, name, rfl, hsteps, hnames⟩ := h
  obtain ⟨part', before', name', rfl, hsteps', hnames'⟩ := h'
  obtain ⟨outer, houter⟩ := Path.exists_steps_join directory
  -- Both go through the directory, which is at one place.
  rw [houter, hsteps, FileTree.follow_append] at hfollow
  rw [houter, hsteps', FileTree.follow_append, Path.start_join place directory part' part]
    at hfollow'
  obtain ⟨base, hbase, hend⟩ := Outcome.bind_eq_ok.mp hfollow
  obtain ⟨base', hbase', hend'⟩ := Outcome.bind_eq_ok.mp hfollow'
  rw [hbase] at hbase'
  cases hbase'
  -- Both paths go on from the directory by names only, and these are where they lead.
  have hsame := (FileTree.follow_names hnames hend).symm.trans (FileTree.follow_names hnames' hend')
  have hpart : Path.steps part = Path.steps part' := by
    rw [hsteps, hsteps']
    exact List.append_cancel_left hsame
  rw [Path.steps_injective hpart]

/-! ## Several files -/

/-- The file and the content that the fate of a job writes, if it writes one. -/
def written (options : Options) (entry : Job × Except String String) : Option (String × String) :=
  match entry.2 with
  | .ok product => (target? options entry.1).map (·, product)
  | .error _ => none

/-- A session after some files were written: each of them has its content, and no other file is
changed. -/
structure Session.WroteAll (s s' : Session) (files : List (String × String)) : Prop where
  /-- The session is in the same directory. -/
  place : s'.place = s.place
  /-- Nothing was printed. -/
  out : s'.out = s.out
  /-- No path leads elsewhere. -/
  grows : s.tree.Grows s'.tree
  /-- Each path gives its content. -/
  read : ∀ file ∈ files, s'.tree.read s'.place file.1 = .ok file.2
  /-- A file to which none of the paths leads is as before. -/
  others : ∀ names, (∀ file ∈ files,
    s'.tree.follow (Path.start s'.place file.1) (Path.steps file.1) ≠ .ok names) →
      s'.tree.fileAt names = s.tree.fileAt names

/-- A session in which nothing was written is as it was. -/
theorem Session.WroteAll.refl (s : Session) : s.WroteAll s [] :=
  ⟨rfl, rfl, .refl s.tree, (fun _ h => nomatch h), fun _ _ => rfl⟩

/-- A file is written before others with other paths. -/
theorem Session.WroteAll.cons {s s₁ s' : Session} {directory path content : String}
    {files : List (String × String)} (hbelow : Below directory path)
    (hothers : ∀ file ∈ files, Below directory file.1 ∧ file.1 ≠ path)
    (h : s.Wrote s₁ path content) (h' : s₁.WroteAll s' files) :
    s.WroteAll s' ((path, content) :: files) := by
  -- Where the first file is does not change when the others are written.
  obtain ⟨names, hfollow, hfiles⟩ := h.file
  have hplace : s'.place = s.place := h'.place.trans h.place
  have hfinal : s'.tree.follow (Path.start s'.place path) (Path.steps path) = .ok names := by
    rw [hplace]
    exact h'.grows.follow hfollow
  refine ⟨hplace, h'.out.trans h.out, h.grows.trans h'.grows, ?_, fun other hother => ?_⟩
  · rintro _ (_ | ⟨_, hfile⟩)
    · -- The other paths lead elsewhere, so the first file is not written again.
      refine FileTree.read_eq_ok.mpr ⟨h.isTooLong, names, hfinal, ?_⟩
      rw [h'.others, hfiles, if_pos rfl]
      intro file hfile hsame
      obtain ⟨hfileBelow, hne⟩ := hothers file hfile
      exact hne (hfileBelow.eq_of_follow hbelow hsame hfinal)
    · exact h'.read _ hfile
  -- Any other file was left alone both by the first writing and by the others.
  · have hne : other ≠ names := fun heq =>
      hother (path, content) (List.mem_cons_self ..) (heq ▸ hfinal)
    rw [h'.others other fun file hfile => hother file (List.mem_cons_of_mem _ hfile), hfiles,
      if_neg hne]

/-- What a job writes goes to its own file, which belongs to no earlier job. -/
theorem written_fate {options : Options} {config : Config} {earlier : List Job} {job : Job}
    {file : String × String}
    (h : written options (job, fate options config earlier job) = some file) :
    target? options job = some file.1 ∧ file.1 ∉ earlier.filterMap (target? options) ∧
      produce options config job.text = .ok file.2 := by
  -- Without a file nothing is written; with a file that belongs to an earlier job neither.
  cases htarget : target? options job with
  | none =>
    unfold written at h
    rw [htarget] at h
    split at h <;> cases h
  | some target =>
    by_cases hmem : target ∈ earlier.filterMap (target? options)
    · rw [fate_late htarget hmem] at h
      cases h
    have hown : ∀ other, target? options job = some other →
        other ∉ earlier.filterMap (target? options) := by
      rintro _ hother
      rw [htarget] at hother
      cases hother
      exact hmem
    -- The file is this job's own, and it is written if there is a product.
    rw [fate_own hown, written, htarget] at h
    cases hproduct : produce options config job.text with
    | error e =>
      rw [hproduct] at h
      cases h
    | ok product =>
      rw [hproduct] at h
      cases h
      exact ⟨rfl, hmem, rfl⟩

/-- What some jobs write goes to the file of one of them. -/
theorem exists_of_mem_written {options : Options} {config : Config} {earlier jobs : List Job}
    {file : String × String}
    (h : file ∈ (fates options config earlier jobs).filterMap (written options)) :
    ∃ job ∈ jobs, target? options job = some file.1 := by
  obtain ⟨⟨job, result⟩, hentry, hwritten⟩ := List.mem_filterMap.mp h
  obtain ⟨before, after, rfl, rfl⟩ := mem_fates.mp hentry
  exact ⟨job, List.mem_append_right _ (List.mem_cons_self ..), (written_fate hwritten).1⟩

/-- No file is written twice, and none that belongs to an earlier job. -/
theorem written_nodup (options : Options) (config : Config) (earlier jobs : List Job) :
    (((fates options config earlier jobs).filterMap (written options)).map Prod.fst).Nodup ∧
      ∀ file ∈ (fates options config earlier jobs).filterMap (written options),
        file.1 ∉ earlier.filterMap (target? options) := by
  induction jobs generalizing earlier with
  | nil => exact ⟨List.nodup_nil, fun _ h => nomatch h⟩
  | cons job later ih =>
    -- What later jobs write belongs neither to this job nor to an earlier one.
    obtain ⟨hnodup, hothers⟩ := ih (earlier ++ [job])
    have hlater : ∀ file ∈ (fates options config (earlier ++ [job]) later).filterMap
        (written options), file.1 ∉ earlier.filterMap (target? options) := by
      intro file hfile hmem
      refine hothers file hfile ?_
      rw [List.filterMap_append]
      exact List.mem_append_left _ hmem
    rw [fates, List.filterMap_cons]
    cases hwritten : written options (job, fate options config earlier job) with
    | none => exact ⟨hnodup, hlater⟩
    | some file =>
      obtain ⟨htarget, hmem, -⟩ := written_fate hwritten
      refine ⟨List.nodup_cons.mpr ⟨fun hsame => ?_, hnodup⟩, ?_⟩
      -- A later job would write a file that belongs to this one.
      · obtain ⟨other, hother, heq⟩ := List.mem_map.mp hsame
        refine hothers other hother ?_
        rw [heq, List.filterMap_append]
        exact List.mem_append_right _ (List.mem_filterMap.mpr
          ⟨job, List.mem_singleton_self job, htarget⟩)
      · rintro _ (_ | ⟨_, hother⟩)
        · exact hmem
        · exact hlater _ hother

/-- A run with a directory for output writes the products of its jobs, each to its own file. -/
theorem wroteAll_foldl {options : Options} {config : Config} {directory : String}
    (hdirectory : options.outDir = some directory) {earlier jobs : List Job}
    (hnamed : ∀ job ∈ jobs, job.Named) {s : Session}
    (h : Deliverable options (fates options config earlier jobs) s) :
    s.WroteAll ((fates options config earlier jobs).foldl (perform options) s)
      ((fates options config earlier jobs).filterMap (written options)) := by
  -- By induction on the jobs: the file of the first one is written, if it has a product, and then
  -- those of the others.
  induction jobs generalizing earlier s with
  | nil => exact .refl s
  | cons job later ih =>
    obtain ⟨hjob, hlater⟩ := h
    have hnamedLater : ∀ other ∈ later, other.Named := fun other hother =>
      hnamed other (List.mem_cons_of_mem job hother)
    have hrest := ih hnamedLater hlater
    rw [fates, List.foldl_cons, List.filterMap_cons]
    cases hfate : fate options config earlier job with
    | error text =>
      rw [hfate] at hrest
      -- A message changes neither the tree nor what was printed as a result.
      exact ⟨hrest.place, hrest.out, hrest.grows, hrest.read, hrest.others⟩
    | ok product =>
      have htarget : ∃ target, target? options job = some target := by
        unfold target?
        rw [hdirectory]
        exact ⟨_, rfl⟩
      obtain ⟨target, htarget⟩ := htarget
      -- The first product is delivered below the directory for output, which ends with a name.
      have hbelow := below_target hdirectory (hnamed job (List.mem_cons_self ..)) htarget
      obtain ⟨before, name, hsteps, hname⟩ := hbelow.exists_steps
      have hwrote : s.Wrote (perform options s (job, .ok product)) target product := by
        have hdeliver := hjob product hfate
        unfold perform
        dsimp only at hdeliver ⊢
        rw [htarget] at hdeliver ⊢
        generalize hs : deliver (m := StateM Session) (some target) product s = delivered
          at hdeliver ⊢
        obtain ⟨result, s'⟩ := delivered
        cases hdeliver
        exact wrote_deliver hsteps hname hs
      have hwritten : written options (job, .ok product) = some (target, product) := by
        rw [written, htarget]
        rfl
      rw [hfate] at hrest
      rw [hwritten]
      -- No later job writes the same file.
      refine .cons hbelow (fun file hfile => ⟨?_, ?_⟩) hwrote hrest
      · obtain ⟨other, hother, hfileTarget⟩ := exists_of_mem_written hfile
        exact below_target hdirectory (hnamedLater other hother) hfileTarget
      · rintro rfl
        refine (written_nodup options config (earlier ++ [job]) later).2 file hfile ?_
        rw [List.filterMap_append]
        exact List.mem_append_right _ (List.mem_filterMap.mpr
          ⟨job, List.mem_singleton_self job, htarget⟩)

end CommandLine

end HandTemplate
