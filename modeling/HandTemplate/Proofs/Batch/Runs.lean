import Mathlib
import HandTemplate.Proofs.Batch.Collisions
import HandTemplate.Proofs.Batch.Writing

/-!
# Runs over several templates

A run compiles each of its templates as if it were the only one. Without a directory for output, it
prints what the templates print on their own, one after the other. With one, each file is written
once at most, by the first template that it belongs to, and every later one is reported. Main
statement: `run_batch`.
-/

namespace HandTemplate

namespace CommandLine

variable {options : Options} {config : Config} {jobs : List Job} {s : Session}

/-! ## Configurations and templates -/

/-- A run over some paths that has its configuration and can read all its templates. -/
structure Ready (options : Options) (config : Config) (jobs : List Job) (s : Session) : Prop where
  /-- The templates are at paths. -/
  paths : ∃ paths, options.input = .paths paths
  /-- There is a configuration. -/
  configured : (configOf (m := StateM Session) options s).1 = .ok config
  /-- The templates are selected and read. -/
  selected : (CommandLine.jobs (m := StateM Session) options.input s).1 = .ok jobs

/-- The configuration is read without a change of the session, and depends neither on the templates
of a run nor on where their products go. -/
theorem configOf_apply (options : Options) (s : Session) (input : Input) (outDir : Option String)
    (out messages : String) :
    configOf (m := StateM Session) options s = ((configOf (m := StateM Session) options s).1, s) ∧
      (configOf (m := StateM Session) { options with input, outDir } { s with out, messages }).1 =
        (configOf (m := StateM Session) options s).1 := by
  unfold configOf
  cases hfile : options.configFile with
  | none => exact ⟨rfl, rfl⟩
  | some path =>
    dsimp only
    rw [bind_apply, bind_apply, readText_apply, readText_apply]
    dsimp only
    cases s.tree.read s.place path with
    | error e => exact ⟨rfl, rfl⟩
    | ok text =>
      dsimp only
      cases Config.ofJson text with
      | error e => exact ⟨rfl, rfl⟩
      | ok config => exact ⟨rfl, rfl⟩

/-- What a run over some paths has selected and read, which leaves the session as it is. -/
structure Loaded (options : Options) (paths : List String) (jobs : List Job) (s : Session) :
    Prop where
  /-- The templates are at these paths. -/
  input : options.input = .paths paths
  /-- The files are found below the paths. -/
  selected : selectAll (m := StateM Session) paths s = (.ok (jobs.map (·.toSelected)), s)
  /-- The jobs are those of the files. -/
  loaded : CommandLine.jobs (m := StateM Session) options.input s = (.ok jobs, s)
  /-- The text of a job is that of its file. -/
  read : ∀ job ∈ jobs, s.tree.read s.place job.path = .ok job.text
  /-- In a proper tree, the path of a product consists of names. -/
  named : s.tree.Proper → ∀ job ∈ jobs, job.Named

/-- A run that is ready to begin has loaded the templates of its paths. -/
theorem Ready.exists_loaded (h : Ready options config jobs s) :
    ∃ paths, Loaded options paths jobs s := by
  -- Neither selecting nor reading changes the session, and both succeed.
  obtain ⟨paths, hpaths⟩ := h.paths
  have hjobs := h.selected
  have hinput : CommandLine.jobs (m := StateM Session) options.input s =
      CommandLine.jobs (m := StateM Session) (.paths paths) s := by rw [hpaths]
  rw [hinput] at hjobs
  unfold CommandLine.jobs at hjobs hinput
  dsimp only at hjobs hinput
  rw [bind_apply] at hjobs hinput
  obtain ⟨result, hselect, hnamed⟩ := selectAll_cases paths s
  rw [hselect] at hjobs hinput
  cases result with
  | error text => cases hjobs
  | ok selected =>
    dsimp only at hjobs hinput
    obtain ⟨result, hread, hresult⟩ := readAll_cases selected s
    rw [hread] at hjobs hinput
    cases hjobs
    obtain ⟨rfl, htexts⟩ := hresult jobs rfl
    -- A job's output is that of the template that it was selected for.
    refine ⟨paths, hpaths, hselect, hinput, htexts, fun hproper job hjob => ?_⟩
    exact hnamed hproper _ rfl job.toSelected (List.mem_map_of_mem hjob)

/-- A run that is ready performs the fates of its jobs. -/
theorem runWith_eq (h : Ready options config jobs s)
    (hdeliver : Deliverable options (fates options config [] jobs) s) :
    runWith (m := StateM Session) options s =
      (if (fates options config [] jobs).all succeeds then .success else .failure,
        (fates options config [] jobs).foldl (perform options) s) := by
  obtain ⟨paths, hloaded⟩ := h.exists_loaded
  have hconfig := (configOf_apply options s options.input options.outDir s.out s.messages).1
  rw [h.configured] at hconfig
  have hclaimed : ∀ target, target ∈ ([] : List String) ↔
      target ∈ ([] : List Job).filterMap (target? options) := fun _ => Iff.rfl
  have hrun := runJobs_eq hclaimed hdeliver
  -- The configuration, the jobs and their fates, one after the other.
  unfold runWith
  rw [bind_apply, hconfig]
  dsimp only
  rw [bind_apply, hloaded.loaded]
  dsimp only
  rw [bind_apply, hrun]
  dsimp only
  split_ifs <;> rfl

/-- The exit code is zero exactly for a success. -/
theorem code_ite (worked : Bool) :
    (if worked then Outcome.success else .failure).code = 0 ↔ worked = true := by
  cases worked <;> decide

/-! ## Without a directory for output -/

/-- The run over one template alone, without a directory for output, where nothing has been printed
yet. -/
def alone (options : Options) (job : Job) (s : Session) : Outcome × Session :=
  runWith (m := StateM Session) { options with input := .paths [job.path], outDir := none }
    { s with out := "", messages := "" }

/-- Without a directory for the products, no job has a path to write to. -/
theorem target?_eq_none (h : options.outDir = none) (job : Job) : target? options job = none := by
  rw [target?, h]
  rfl

/-- Without a directory for output, fates print only. -/
theorem foldl_perform (h : options.outDir = none) (entries : List (Job × Except String String))
    (s : Session) : Deliverable options entries s ∧
      entries.foldl (perform options) s = { s with
        out := s.out ++ String.join (entries.map printed)
        messages := s.messages ++ String.join (entries.map reported) } := by
  -- By induction on the fates, each of which prints where those before it have printed.
  induction entries generalizing s with
  | nil =>
    refine ⟨trivial, ?_⟩
    rw [List.map_nil, List.map_nil, String.join_nil, String.append_empty, String.append_empty]
    rfl
  | cons entry entries ih =>
    obtain ⟨job, result⟩ := entry
    have hdeliver : ∀ product, deliver (m := StateM Session) (target? options job) product s =
        (.ok (), { s with out := s.out ++ (product ++ "\n") }) := fun product => by
      rw [target?_eq_none h]
      rfl
    obtain ⟨hrest, hfold⟩ := ih (perform options s (job, result))
    refine ⟨⟨fun product _ => by rw [hdeliver], hrest⟩, ?_⟩
    rw [List.foldl_cons, hfold]
    cases result with
    | ok product =>
      simp only [perform, hdeliver, List.map_cons, String.join_cons, printed, reported,
        String.append_assoc, String.empty_append]
    | error text =>
      simp only [perform, List.map_cons, String.join_cons, printed, reported,
        String.append_assoc, String.empty_append]

/-- A run without a directory for output prints what its fates print. -/
theorem runWith_prints (h : Ready options config jobs s) (hnone : options.outDir = none) :
    runWith (m := StateM Session) options s =
      (if (fates options config [] jobs).all succeeds then .success else .failure, { s with
        out := s.out ++ String.join ((fates options config [] jobs).map printed)
        messages := s.messages ++ String.join ((fates options config [] jobs).map reported) }) := by
  obtain ⟨hdeliver, hfold⟩ := foldl_perform hnone (fates options config [] jobs) s
  rw [runWith_eq h hdeliver, hfold]

/-- Without a directory for output, all jobs have the fates of their own texts. -/
theorem fates_eq_map (hnone : options.outDir = none) (earlier jobs : List Job) :
    fates options config earlier jobs = jobs.map fun job =>
      (job, (produce options config job.text).mapError CompileFault.message) := by
  induction jobs generalizing earlier with
  | nil => rfl
  | cons job later ih =>
    have hfate : fate options config earlier job =
        (produce options config job.text).mapError CompileFault.message := by
      refine fate_own fun target htarget => ?_
      rw [target?_eq_none hnone] at htarget
      cases htarget
    rw [fates, ih, hfate, List.map_cons]

/-- A run over a single template prints its product or its message. -/
theorem runWith_single {job : Job} (h : Ready options config [job] s)
    (hnone : options.outDir = none) : runWith (m := StateM Session) options s =
      match produce options config job.text with
      | .ok product => (.success, { s with out := s.out ++ (product ++ "\n") })
      | .error e => (.failure, { s with
          messages := s.messages ++ (job.path ++ ": " ++ e.message ++ "\n") }) := by
  rw [runWith_prints h hnone, fates_eq_map hnone, List.map_cons, List.map_nil]
  cases produce options config job.text with
  | ok product =>
    simp only [List.map_cons, List.map_nil, String.join_cons, String.join_nil, printed, reported,
      Except.mapError, String.append_empty]
    rfl
  | error e =>
    simp only [List.map_cons, List.map_nil, String.join_cons, String.join_nil, printed, reported,
      Except.mapError, String.append_empty]
    rfl

/-- A template that was read from a file is selected when its path is the only one. -/
theorem jobs_alone {job : Job} (h : s.tree.read s.place job.path = .ok job.text) :
    (CommandLine.jobs (m := StateM Session) (.paths [job.path]) s).1 =
      .ok [⟨selectFile job.path, job.text⟩] := by
  -- A path from which a text is read is no directory, so it stands for one template.
  have hdirectory : Host.directory? (m := StateM Session) job.path s = (none, s) := by
    refine directory?_of_not fun entries haccess => ?_
    rw [FileTree.read, haccess] at h
    cases h
  have hselect : selectAll (m := StateM Session) [job.path] s = (.ok [selectFile job.path], s) := by
    unfold selectAll select
    rw [bind_apply, bind_apply, hdirectory]
    rfl
  unfold CommandLine.jobs
  dsimp only
  rw [bind_apply, hselect]
  dsimp only
  unfold readAll
  rw [bind_apply, readText_apply]
  change s.tree.read s.place (selectFile job.path).path = _ at h
  rw [h]
  rfl

/-- A template alone has the product of its own text or the message of its own fault. -/
theorem alone_eq (h : Ready options config jobs s) {job : Job} (hjob : job ∈ jobs) :
    alone options job s = match produce options config job.text with
      | .ok product => (.success, { s with out := product ++ "\n", messages := "" })
      | .error e => (.failure, { s with
          out := "", messages := job.path ++ ": " ++ e.message ++ "\n" }) := by
  -- Alone, the template meets the same configuration and the same text, whatever was printed
  -- before.
  obtain ⟨paths, hloaded⟩ := h.exists_loaded
  have hready : Ready { options with input := .paths [job.path], outDir := none } config
      [⟨selectFile job.path, job.text⟩]
      { s with out := "", messages := "" } :=
    ⟨⟨_, rfl⟩, (configOf_apply options s _ _ _ _).2.trans h.configured,
      jobs_alone (hloaded.read job hjob)⟩
  rw [alone, runWith_single hready rfl]
  change (match produce options config job.text with
    | .ok product => _
    | .error e => _) = _
  cases produce options config job.text with
  | ok product =>
    dsimp only
    rw [String.empty_append]
  | error e =>
    dsimp only
    rw [String.empty_append]
    rfl

/-- The result of a run without a directory for output: it prints what its templates print alone, in
their order, and it succeeds if each of them does. -/
structure PrintsEach (options : Options) (config : Config) (jobs : List Job) (s : Session)
    (result : Outcome × Session) : Prop where
  /-- Nothing but what is printed changes. -/
  session : result.2 = { s with
    out := s.out ++ String.join (jobs.map fun job => (alone options job s).2.out)
    messages := s.messages ++ String.join (jobs.map fun job => (alone options job s).2.messages) }
  /-- The run succeeds if each template does alone. -/
  code : result.1.code = 0 ↔ ∀ job ∈ jobs, (alone options job s).1.code = 0
  /-- Alone, a template prints its product or one line with its path and message. -/
  alone : ∀ job ∈ jobs, alone options job s =
    match produce options config job.text with
    | .ok product => (.success, { s with out := product ++ "\n", messages := "" })
    | .error e => (.failure, { s with
        out := "", messages := job.path ++ ": " ++ e.message ++ "\n" })

/-- A run without a directory for its products prints what each job prints alone. -/
theorem printsEach (h : Ready options config jobs s) (hnone : options.outDir = none) :
    PrintsEach options config jobs s (runWith (m := StateM Session) options s) := by
  -- What a job prints, what it reports and whether it succeeds is the same alone.
  have hprinted : ∀ job ∈ jobs, printed
      (job, (produce options config job.text).mapError CompileFault.message) =
        (alone options job s).2.out := by
    intro job hjob
    rw [alone_eq h hjob]
    cases produce options config job.text <;> rfl
  have hreported : ∀ job ∈ jobs, reported
      (job, (produce options config job.text).mapError CompileFault.message) =
        (alone options job s).2.messages := by
    intro job hjob
    rw [alone_eq h hjob]
    cases produce options config job.text <;> rfl
  have hsucceeds : ∀ job ∈ jobs, succeeds
      (job, (produce options config job.text).mapError CompileFault.message) = true ↔
        (alone options job s).1.code = 0 := by
    intro job hjob
    rw [alone_eq h hjob]
    cases produce options config job.text with
    | ok product => exact ⟨fun _ => rfl, fun _ => rfl⟩
    | error e =>
      have hfailure : Outcome.failure.code ≠ 0 := by decide
      exact ⟨(fun hok => nomatch hok), fun hcode => absurd hcode hfailure⟩
  rw [runWith_prints h hnone, fates_eq_map hnone]
  refine ⟨?_, ?_, fun job hjob => alone_eq h hjob⟩
  · rw [List.map_map, List.map_map]
    have hout := congrArg String.join (List.map_congr_left hprinted)
    have hmessages := congrArg String.join (List.map_congr_left hreported)
    exact congr (congrArg (fun out messages => { s with
      out := s.out ++ out, messages := s.messages ++ messages }) hout) hmessages
  · rw [code_ite, List.all_map, List.all_eq_true]
    exact forall₂_congr hsucceeds

/-! ## With a directory for output -/

/-- What the products of a run write: a file and its content for each of them. -/
def files (options : Options) (config : Config) (jobs : List Job) : List (String × String) :=
  (fates options config [] jobs).filterMap (written options)

/-- The result of a run with a directory for output: each file is written once at most, by the first
job that it belongs to, if that job has a product, and as if that job were the only one. Each later
job with the same file is reported. -/
structure WritesFirst (options : Options) (config : Config) (jobs : List Job) (s : Session)
    (result : Outcome × Session) : Prop where
  /-- The run does nothing but deliver the products and print the messages of its jobs. -/
  performed : result.2 = (fates options config [] jobs).foldl (perform options) s
  /-- No file is written twice. -/
  nodup : ((files options config jobs).map Prod.fst).Nodup
  /-- The files have their contents, and no other file is changed. -/
  wrote : s.WroteAll result.2 (files options config jobs)
  /-- The messages are those of the jobs, in their order. -/
  messages : result.2.messages =
    s.messages ++ String.join ((fates options config [] jobs).map reported)
  /-- The run succeeds if each job does. -/
  code : result.1.code = 0 ↔ ∀ entry ∈ fates options config [] jobs, succeeds entry
  /-- A job whose file belongs to an earlier one is reported. -/
  late {before after : List Job} {job : Job} : jobs = before ++ job :: after →
    ∀ {target : String}, target? options job = some target →
      target ∈ before.filterMap (target? options) → fate options config before job =
        .error ("another template already writes '" ++ target ++ "'")
  /-- A job whose file belongs to no earlier one has it alone: the file has the job's product after
  the run, as after the run of this job only, or it is as before if the job has no product. -/
  first {before after : List Job} {job : Job} : jobs = before ++ job :: after →
    ∀ {target : String}, target? options job = some target →
      target ∉ before.filterMap (target? options) →
      match produce options config job.text with
      | .ok product => result.2.tree.read result.2.place target = .ok product ∧
          (alone options job s).2.out = product ++ "\n" ∧
          ∀ {lone : Session},
            runJob (m := StateM Session) options config job (some target) s = (true, lone) →
              lone.tree.read lone.place target = .ok product
      | .error e => fate options config before job = .error e.message ∧
          ∀ {names : List String}, result.2.tree.follow (Path.start result.2.place target)
            (Path.steps target) = .ok names → result.2.tree.fileAt names = s.tree.fileAt names

/-- Of the jobs with the same file there is only one first. -/
theorem eq_of_first {before before' after after' : List Job} {job job' : Job} {target : String}
    (h : before ++ job :: after = before' ++ job' :: after')
    (htarget : target? options job = some target) (htarget' : target? options job' = some target)
    (hfirst : target ∉ before.filterMap (target? options))
    (hfirst' : target ∉ before'.filterMap (target? options)) : job = job' := by
  -- The first job with a file is what a search for the file finds.
  have hfind : ∀ {before : List Job} (after : List Job) {job : Job},
      target? options job = some target → target ∉ before.filterMap (target? options) →
      (before ++ job :: after).find? (target? options · = some target) = some job := by
    intro before after job htarget hfirst
    refine List.find?_eq_some_iff_append.mpr ⟨by rw [htarget]; simp, before, after, rfl, ?_⟩
    intro other hother
    simp only [Bool.not_eq_true', decide_eq_false_iff_not]
    exact fun hotherTarget => hfirst (List.mem_filterMap.mpr ⟨other, hother, hotherTarget⟩)
  have hjob := hfind after htarget hfirst
  rw [h, hfind after' htarget' hfirst'] at hjob
  exact (Option.some.inj hjob).symm

/-- A run with a directory for its products writes for each path the product of the first job. -/
theorem writesFirst (h : Ready options config jobs s) (hproper : s.tree.Proper) {directory : String}
    (hdirectory : options.outDir = some directory)
    (hdeliver : Deliverable options (fates options config [] jobs) s) :
    WritesFirst options config jobs s (runWith (m := StateM Session) options s) := by
  obtain ⟨paths, hloaded⟩ := h.exists_loaded
  have hnamed := hloaded.named hproper
  have hwrote := wroteAll_foldl hdirectory hnamed hdeliver
  rw [runWith_eq h hdeliver]
  refine ⟨rfl, (written_nodup options config [] jobs).1, hwrote, messages_foldl _ s, ?_, ?_, ?_⟩
  · rw [code_ite, List.all_eq_true]
  · rintro before after job rfl target htarget hlate
    exact fate_late htarget hlate
  -- The job has its own fate, and its file is below the directory for output.
  · rintro before after job rfl target htarget hfirst
    have hfate : fate options config before job =
        (produce options config job.text).mapError CompileFault.message := by
      refine fate_own fun other hother => ?_
      rw [htarget] at hother
      cases hother
      exact hfirst
    have hjob : job ∈ before ++ job :: after := List.mem_append_right before (List.mem_cons_self ..)
    have hbelow := below_target hdirectory (hnamed job hjob) htarget
    rw [alone_eq h hjob]
    cases hproduct : produce options config job.text with
    -- With a product, the job writes its file, alone and among the others.
    | ok product =>
      have hwritten : (target, product) ∈ files options config (before ++ job :: after) := by
        refine List.mem_filterMap.mpr
          ⟨(job, .ok product), mem_fates.mpr ⟨before, after, rfl, ?_⟩, ?_⟩
        · rw [List.nil_append, hfate, hproduct]
          rfl
        · rw [written, htarget]
          rfl
      obtain ⟨outer, name, hsteps, hname⟩ := hbelow.exists_steps
      refine ⟨hwrote.read _ hwritten, rfl, fun {lone} hlone => ?_⟩
      unfold runJob at hlone
      rw [hproduct] at hlone
      dsimp only at hlone
      rw [bind_apply] at hlone
      -- That the run alone works means that its product was delivered.
      generalize hdelivered : deliver (m := StateM Session) (some target) product s = delivered
        at hlone
      obtain ⟨text | ⟨⟩, s'⟩ := delivered
      · exact absurd (congrArg Prod.fst hlone) Bool.false_ne_true
      · cases hlone
        exact (wrote_deliver hsteps hname hdelivered).read
    | error e =>
      rw [hproduct] at hfate
      -- A file that was written there would be that of a first job with a product, so of this one.
      refine ⟨hfate, fun {names} hnames => hwrote.others names fun file hfile hfollow => ?_⟩
      obtain ⟨⟨other, result⟩, hentry, hwritten⟩ := List.mem_filterMap.mp hfile
      obtain ⟨before', after', hsplit, rfl⟩ := mem_fates.mp hentry
      obtain ⟨hother, hotherFirst, hotherProduct⟩ := written_fate hwritten
      have hotherMem : other ∈ before ++ job :: after := by
        rw [hsplit]
        exact List.mem_append_right before' (List.mem_cons_self ..)
      have hsame := (below_target hdirectory (hnamed other hotherMem) hother).eq_of_follow
        hbelow hfollow hnames
      rw [hsame] at hother hotherFirst
      rw [← eq_of_first hsplit htarget hother hfirst hotherFirst, hproduct] at hotherProduct
      cases hotherProduct

/-! ## All runs -/

/-- From a single directory, a run selects the templates below it. -/
theorem Ready.selected_directory (h : Ready options config jobs s) {directory : String}
    {tree : FileTree Unit} (hinput : options.input = .paths [directory])
    (htree : (Host.directory? (m := StateM Session) directory s).1 = some tree) :
    jobs.map (·.toSelected) = templatesBelow directory tree := by
  obtain ⟨paths, hloaded⟩ := h.exists_loaded
  have hpaths := hloaded.input
  rw [hinput] at hpaths
  cases hpaths
  -- The directory is looked up where it was found.
  have hselect := hloaded.selected
  have hdirectory : Host.directory? (m := StateM Session) directory s = (some tree, s) := by
    rcases directory?_cases directory s with hnone | ⟨found, hfound, -⟩
    · rw [hnone] at htree
      cases htree
    · rw [hfound] at htree ⊢
      cases htree
      rfl
  unfold selectAll select at hselect
  rw [bind_apply, bind_apply, hdirectory] at hselect
  dsimp only at hselect
  cases hunsearchable : unsearchable? directory tree with
  | some outer =>
    rw [hunsearchable] at hselect
    cases hselect
  | none =>
    rw [hunsearchable] at hselect
    have hlist : jobs.map (·.toSelected) = templatesBelow directory tree ++ [] :=
      (Except.ok.inj (congrArg Prod.fst hselect)).symm
    rw [hlist, List.append_nil]

/-- A run over several templates compiles each of them as if it were the only one. Without a
directory for output, it prints what each of them prints alone. With one, and if all files can be
written, each file is written once at most, by the first template that it belongs to; every later
one is reported. Among the templates of a single directory there are two with the same file only if
they are called `..mtl` and `...mtl` in the same place. -/
theorem run_batch {arguments : List String} (hparse : Options.parse arguments = .ok options)
    (h : Ready options config jobs s) (hproper : s.tree.Proper) :
    (options.outDir = none →
      PrintsEach options config jobs s (run (m := StateM Session) arguments s)) ∧
    (options.outDir.isSome → Deliverable options (fates options config [] jobs) s →
      WritesFirst options config jobs s (run (m := StateM Session) arguments s)) ∧
    ∀ {directory : String} {tree : FileTree Unit}, options.outDir.isSome →
      options.input = .paths [directory] →
      (Host.directory? (m := StateM Session) directory s).1 = some tree →
      ((∃ before job after, jobs = before ++ job :: after ∧ IsLate options before job) ↔
        ∃ names, selectBelow directory (names ++ ["..mtl"]) ∈ templatesBelow directory tree ∧
          selectBelow directory (names ++ ["...mtl"]) ∈ templatesBelow directory tree) := by
  have hrun : run (m := StateM Session) arguments s = runWith (m := StateM Session) options s := by
    unfold run
    rw [hparse]
  rw [hrun]
  refine ⟨printsEach h, fun hsome hdeliver => ?_, fun {directory tree} hsome hinput htree => ?_⟩
  -- Below one directory, the tree that was found is proper as the whole one is.
  · obtain ⟨output, houtput⟩ := Option.isSome_iff_exists.mp hsome
    exact writesFirst h hproper houtput hdeliver
  · obtain ⟨output, houtput⟩ := Option.isSome_iff_exists.mp hsome
    have htreeProper : tree.Proper := by
      rcases directory?_cases directory s with hnone | ⟨found, hfound, hfoundProper⟩
      · rw [hnone] at htree
        cases htree
      · rw [hfound] at htree
        cases htree
        exact hfoundProper hproper
    exact exists_isLate_iff houtput htreeProper (h.selected_directory hinput htree)

/-- Two templates of one name in different directories have one path, which the first one claims:
its product is written, and the second one is refused. -/
theorem run_batch_claimed :
    let text := "metadata \x7b \x7d\nvariations \x7b pair(1, b) \x7d"
    let arguments := ["a/x.mtl", "b/x.mtl", "-t", "-o", "out"]
    let options : Options :=
      { input := .paths ["a/x.mtl", "b/x.mtl"], tilesOnly := true, outDir := some "out" }
    let jobs : List Job := [⟨⟨"a/x.mtl", "x"⟩, text⟩, ⟨⟨"b/x.mtl", "x"⟩, ""⟩]
    let s : Session := { tree := .directory [
      ("a", .directory [("x.mtl", .file text)]), ("b", .directory [("x.mtl", .file "")])] }
    Options.parse arguments = .ok options ∧ Ready options {} jobs s ∧ s.tree.Proper ∧
      options.outDir.isSome ∧ Deliverable options (fates options {} [] jobs) s ∧
      WritesFirst options {} jobs s (run (m := StateM Session) arguments s) ∧
      (run (m := StateM Session) arguments s).2.tree.read
        (run (m := StateM Session) arguments s).2.place "out/x.json" =
          .ok "[[\"1b\",\"1b\"]]" := by
  intro text arguments options jobs s
  have hparse : Options.parse arguments = .ok options := rfl
  -- The session is proper, and the run is ready in it.
  have hready : Ready options {} jobs s := ⟨⟨_, rfl⟩, rfl, rfl⟩
  have hname : Path.IsName "x.mtl" := ⟨rfl, by decide, by decide⟩
  have hnames : ∀ {tree : FileTree String}, tree.Proper →
      (FileTree.directory [("x.mtl", tree)]).Proper := fun {tree} h => by
    refine .directory ?_ (List.nodup_singleton _) ?_
    · rintro _ (_ | ⟨_, ⟨⟩⟩)
      exact hname
    · rintro _ (_ | ⟨_, ⟨⟩⟩)
      exact h
  have hproper : s.tree.Proper := by
    refine .directory ?_ (by decide) ?_
    · rintro _ (_ | ⟨_, _ | ⟨_, ⟨⟩⟩⟩)
      · exact ⟨rfl, by decide, by decide⟩
      · exact ⟨rfl, by decide, by decide⟩
    · rintro _ (_ | ⟨_, _ | ⟨_, ⟨⟩⟩⟩)
      · exact hnames .file
      · exact hnames .file
  -- The first template has a product, which is delivered; the second one has the same file.
  have hproduct : produce options {} text = .ok "[[\"1b\",\"1b\"]]" := by decide +kernel
  have hfate : fate options {} [] ⟨⟨"a/x.mtl", "x"⟩, text⟩ = .ok "[[\"1b\",\"1b\"]]" := by
    rw [fate_own fun _ _ => List.not_mem_nil, hproduct]
    rfl
  have hdeliver : Deliverable options (fates options {} [] jobs) s := by
    refine ⟨fun product hfirst => ?_, fun product hsecond => ?_, trivial⟩
    · cases hfate.symm.trans hfirst
      decide +kernel
    · have hlate : fate options {} [⟨⟨"a/x.mtl", "x"⟩, text⟩] ⟨⟨"b/x.mtl", "x"⟩, ""⟩ =
          .error _ := fate_late rfl (List.mem_singleton_self _)
      cases hlate.symm.trans hsecond
  -- So the file has the first product after the run.
  have hwrites := (run_batch hparse hready hproper).2.1 rfl hdeliver
  have hsplit : jobs = [] ++ ⟨⟨"a/x.mtl", "x"⟩, text⟩ :: [⟨⟨"b/x.mtl", "x"⟩, ""⟩] := rfl
  have htarget : target? options ⟨⟨"a/x.mtl", "x"⟩, text⟩ = some "out/x.json" := rfl
  have hfirst := hwrites.first hsplit htarget List.not_mem_nil
  rw [hproduct] at hfirst
  exact ⟨hparse, hready, hproper, rfl, hdeliver, hwrites, hfirst.1⟩

end CommandLine

end HandTemplate
