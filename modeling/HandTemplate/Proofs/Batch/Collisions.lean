import Mathlib
import HandTemplate.Proofs.Batch.Fates
import HandTemplate.Proofs.Batch.Selection

/-!
# Collisions in a single directory

Templates of one directory keep their place below it, and so their products are different files,
with one exception: a name that is nothing but a point before its extension takes a second point,
and then `..mtl` goes to the same file as `...mtl` beside it. Main statement: `exists_isLate_iff`.
-/

namespace HandTemplate

namespace CommandLine

/-- The file of a job belongs to one of some earlier jobs. -/
def IsLate (options : Options) (earlier : List Job) (job : Job) : Prop :=
  ∃ target, target? options job = some target ∧ target ∈ earlier.filterMap (target? options)

/-! ## Names of templates -/

/-- A name that is taken from a directory consists of its stem and the extension. -/
theorem eq_of_isSelectable {name : String} (h : isSelectable name = true) :
    name = Path.stem name ++ "." ++ "mtl" := by
  unfold isSelectable at h
  rw [Bool.and_eq_true, decide_eq_true_eq] at h
  exact Path.eq_of_extension? h.1

/-- Two names that are taken from a directory give the same name of a product only if they are the
same, or one of them is `..mtl` and the other one `...mtl`. -/
theorem productName_eq {name name' : String} (h : isSelectable name = true)
    (h' : isSelectable name' = true) (heq : productName name = productName name') :
    name = name' ∨ (name = "..mtl" ∧ name' = "...mtl") ∨ (name = "...mtl" ∧ name' = "..mtl") := by
  have hname := eq_of_isSelectable h
  have hname' := eq_of_isSelectable h'
  -- The stem `.` of `..mtl` is replaced by `..`, which is the stem of `...mtl`.
  unfold productName at heq
  split_ifs at heq with hpoint hpoint' hpoint'
  · exact .inl (by rw [hname, hname', hpoint, hpoint'])
  · refine .inr (.inl ⟨?_, ?_⟩)
    · rw [hname, hpoint]
      rfl
    · rw [hname', ← heq]
      rfl
  · refine .inr (.inr ⟨?_, ?_⟩)
    · rw [hname, heq]
      rfl
    · rw [hname', hpoint']
      rfl
  · exact .inl (by rw [hname, hname', heq])

/-! ## Products of templates -/

/-- In one directory, different names make different paths. -/
theorem join_injective (directory : String) : Function.Injective (Path.join directory) := by
  intro name name' h
  obtain ⟨outer, houter⟩ := Path.exists_steps_join directory
  have hsteps := congrArg Path.steps h
  rw [houter, houter] at hsteps
  exact Path.steps_injective (List.append_cancel_left hsteps)

/-- Jobs have the same file if and only if they have the same name for their product. -/
theorem target?_eq_iff {options : Options} {directory : String}
    (hdirectory : options.outDir = some directory) {job job' : Job} :
    target? options job = target? options job' ↔ job.output = job'.output := by
  unfold target?
  rw [hdirectory, Option.map_some, Option.map_some, Option.some.injEq,
    (join_injective directory).eq_iff]
  exact (append_word_injective options.product).eq_iff

/-- Two templates below a directory have the same name for their product only if they are the same
template, or they are called `..mtl` and `...mtl` in the same place. -/
theorem output_eq {directory : String} {tree : FileTree Unit} (htree : tree.Proper)
    {names names' : List String} (h : names ∈ templateNames directory tree)
    (h' : names' ∈ templateNames directory tree)
    (heq : (selectBelow directory names).output = (selectBelow directory names').output) :
    names = names' ∨ ∃ before, (names = before ++ ["..mtl"] ∧ names' = before ++ ["...mtl"]) ∨
      (names = before ++ ["...mtl"] ∧ names' = before ++ ["..mtl"]) := by
  -- No name of the listing has a slash in it, so that each of them is a single step.
  have hnoSlash : ∀ {names : List String}, names ∈ tree.files.map Prod.fst →
      ∀ name ∈ names, '/' ∉ name.toList := by
    intro names hnames name hname
    obtain ⟨found, hfound, rfl⟩ := List.mem_map.mp hnames
    exact (htree.isName found hfound name hname).noSlash
  obtain ⟨before, last, rfl, hselectable, hfile⟩ := exists_of_mem_templateNames h
  obtain ⟨before', last', rfl, hselectable', hfile'⟩ := exists_of_mem_templateNames h'
  have hmem : ∀ (before : List String) (last : String), last ∈ before ++ [last] :=
    fun before last => List.mem_append_right before (List.mem_singleton_self last)
  -- The steps to the products say where both templates are, whatever the product is.
  have hsteps := steps_selectBelow directory
    (fun name hname => hnoSlash hfile name (List.mem_append_left _ hname))
    (hnoSlash hfile last (hmem before last)) .json
  have hsteps' := steps_selectBelow directory
    (fun name hname => hnoSlash hfile' name (List.mem_append_left _ hname))
    (hnoSlash hfile' last' (hmem before' last')) .json
  rw [heq, hsteps'] at hsteps
  -- The same steps are the same directory and the same product, and the names of the templates are
  -- compared by what their product is called.
  obtain ⟨rfl, hnames⟩ :=
    List.append_inj' hsteps (by rw [List.length_singleton, List.length_singleton])
  have hproduct := append_word_injective .json (List.cons.inj hnames).1
  rcases productName_eq hselectable' hselectable hproduct with rfl | ⟨rfl, rfl⟩ | ⟨rfl, rfl⟩
  · exact .inl rfl
  · exact .inr ⟨_, .inr ⟨rfl, rfl⟩⟩
  · exact .inr ⟨_, .inl ⟨rfl, rfl⟩⟩

/-! ## Collisions -/

/-- Of two jobs with the same file, the one that comes later is late. -/
theorem exists_isLate {options : Options} {jobs : List Job} {job job' : Job} {target : String}
    (h : job ∈ jobs) (h' : job' ∈ jobs) (hne : job ≠ job')
    (htarget : target? options job = some target) (htarget' : target? options job' = some target) :
    ∃ before late after, jobs = before ++ late :: after ∧ IsLate options before late := by
  -- The other job stands before this one or behind it; whichever of the two comes second is late.
  obtain ⟨before, after, rfl⟩ := List.append_of_mem h
  rcases List.mem_append.mp h' with h' | h'
  · exact ⟨before, job, after, rfl, target, htarget, List.mem_filterMap.mpr ⟨job', h', htarget'⟩⟩
  rcases List.mem_cons.mp h' with rfl | h'
  · exact absurd rfl hne
  · obtain ⟨between, after, rfl⟩ := List.append_of_mem h'
    refine ⟨before ++ job :: between, job', after, by simp, target, htarget',
      List.mem_filterMap.mpr ⟨job, ?_, htarget⟩⟩
    exact List.mem_append_right _ (List.mem_cons_self ..)

/-- Among the templates of a single directory there is a collision exactly if two of them are called
`..mtl` and `...mtl` in the same place. -/
theorem exists_isLate_iff {options : Options} {output directory : String}
    (houtput : options.outDir = some output) {tree : FileTree Unit} (htree : tree.Proper)
    {jobs : List Job} (hjobs : jobs.map (·.toSelected) = templatesBelow directory tree) :
    (∃ before job after, jobs = before ++ job :: after ∧ IsLate options before job) ↔
      ∃ names, selectBelow directory (names ++ ["..mtl"]) ∈ templatesBelow directory tree ∧
        selectBelow directory (names ++ ["...mtl"]) ∈ templatesBelow directory tree := by
  constructor
  -- The late job and the earlier one with the same file come from two templates whose products have
  -- the same name.
  · rintro ⟨before, job, after, rfl, target, htarget, hlate⟩
    obtain ⟨other, hother, hotherTarget⟩ := List.mem_filterMap.mp hlate
    have houtputs := (target?_eq_iff houtput).mp (hotherTarget.trans htarget.symm)
    rw [templatesBelow_eq, List.map_append, List.map_cons] at hjobs
    -- The two jobs are at different places of a list without duplicates.
    obtain ⟨first, rest, hsplit, hfirst, hrest⟩ := List.map_eq_append_iff.mp hjobs.symm
    obtain ⟨names, last, rfl, hnames, -⟩ := List.map_eq_cons_iff.mp hrest
    have hmem : other.toSelected ∈ first.map (selectBelow directory) := by
      rw [hfirst]
      exact List.mem_map_of_mem hother
    obtain ⟨names', hnames'mem, hnames'⟩ := List.mem_map.mp hmem
    have hnodup : (templateNames directory tree).Nodup := htree.files_nodup.filter _
    have hne : names' ≠ names := by
      rw [hsplit] at hnodup
      exact fun h => (List.nodup_append.mp hnodup).2.2 names' hnames'mem names
        (List.mem_cons_self ..) h
    -- These templates are called differently, so they are the two that share a name.
    have hsame : (selectBelow directory names').output = (selectBelow directory names).output := by
      rw [hnames', hnames]
      exact houtputs
    have hin : names ∈ templateNames directory tree := by
      rw [hsplit]
      exact List.mem_append_right _ (List.mem_cons_self ..)
    have hin' : names' ∈ templateNames directory tree := by
      rw [hsplit]
      exact List.mem_append_left _ hnames'mem
    rw [templatesBelow_eq]
    rcases output_eq htree hin' hin hsame with heq | ⟨place, ⟨rfl, rfl⟩ | ⟨rfl, rfl⟩⟩
    · exact absurd heq hne
    · exact ⟨place, List.mem_map_of_mem hin', List.mem_map_of_mem hin⟩
    · exact ⟨place, List.mem_map_of_mem hin, List.mem_map_of_mem hin'⟩
  · rintro ⟨names, h, h'⟩
    rw [← hjobs] at h h'
    obtain ⟨job, hjob, hselected⟩ := List.mem_map.mp h
    obtain ⟨job', hjob', hselected'⟩ := List.mem_map.mp h'
    -- The products of both have the same name, but the templates have different paths.
    have hne : job ≠ job' := by
      rintro rfl
      have hpath := congrArg Selected.path (hselected.symm.trans hselected')
      simp only [selectBelow, List.foldl_append, List.foldl_cons, List.foldl_nil] at hpath
      exact absurd (join_injective _ hpath) (by decide)
    have hsame : job.output = job'.output := by
      have houtput := congrArg Selected.output hselected
      have houtput' := congrArg Selected.output hselected'
      simp only [selectBelow, List.dropLast_concat, List.getLast?_concat] at houtput houtput'
      exact houtput.trans houtput'.symm
    -- With the same name for their products, the jobs have the same file.
    have htarget := (target?_eq_iff houtput).mpr hsame
    cases hjobTarget : target? options job with
    | none =>
      unfold target? at hjobTarget
      rw [houtput] at hjobTarget
      cases hjobTarget
    | some target =>
      exact exists_isLate hjob hjob' hne hjobTarget (htarget.symm.trans hjobTarget)

end CommandLine

end HandTemplate
