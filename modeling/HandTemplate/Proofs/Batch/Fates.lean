import Mathlib
import HandTemplate.Proofs.Batch.Delivery

/-!
# What becomes of the jobs of a run

A job of a run gets its product, or a message why there is none. That depends on its own text and on
the files of the jobs before it, and on nothing else. If every product can be delivered, a run
performs the fates of its jobs one after the other. Main statement: `runJobs_eq`.
-/

namespace HandTemplate

namespace CommandLine

variable (options : Options) (config : Config)

/-- The product of a job after some earlier ones, or the message why there is none. -/
def fate (earlier : List Job) (job : Job) : Except String String :=
  match (target? options job).filter (earlier.filterMap (target? options)).contains with
  | some target => .error ("another template already writes '" ++ target ++ "'")
  | none => (produce options config job.text).mapError CompileFault.message

/-- Some jobs with their fates after earlier ones. -/
def fates : (earlier : List Job) → List Job → List (Job × Except String String)
  | _, [] => []
  | earlier, job :: later =>
    (job, fate options config earlier job) :: fates (earlier ++ [job]) later

/-- What the fate of a job prints as a result where there is no directory for output. -/
def printed : Job × Except String String → String
  | (_, .ok product) => product ++ "\n"
  | (_, .error _) => ""

/-- What the fate of a job prints as a message. -/
def reported : Job × Except String String → String
  | (_, .ok _) => ""
  | (job, .error text) => job.path ++ ": " ++ text ++ "\n"

/-- Whether the fate of a job is a product. -/
def succeeds (entry : Job × Except String String) : Bool := entry.2.isOk

/-- The session after the fate of a job: its product is delivered, or its message is printed. -/
def perform (s : Session) (entry : Job × Except String String) : Session :=
  match entry.2 with
  | .ok product => (deliver (m := StateM Session) (target? options entry.1) product s).2
  | .error text => { s with messages := s.messages ++ (entry.1.path ++ ": " ++ text ++ "\n") }

/-- All products can be delivered when it is their turn. -/
def Deliverable : List (Job × Except String String) → Session → Prop
  | [], _ => True
  | entry :: entries, s =>
    (∀ product, entry.2 = .ok product →
      (deliver (m := StateM Session) (target? options entry.1) product s).1 = .ok ()) ∧
    Deliverable entries (perform options s entry)

variable {options config}

/-- The fate of a job is its fate after all jobs before it. -/
theorem mem_fates {earlier jobs : List Job} {job : Job} {result : Except String String} :
    (job, result) ∈ fates options config earlier jobs ↔ ∃ before after,
      jobs = before ++ job :: after ∧ result = fate options config (earlier ++ before) job := by
  -- By induction on the jobs, each of which is an earlier one for those after it.
  induction jobs generalizing earlier with
  | nil =>
    constructor
    · exact fun h => nomatch h
    · rintro ⟨before, after, h, -⟩
      exact absurd h.symm (List.append_ne_nil_of_right_ne_nil before (List.cons_ne_nil job after))
  | cons first later ih =>
    rw [fates, List.mem_cons, ih, Prod.mk.injEq]
    constructor
    -- The first job has nothing more before it; any other one has the first job before it.
    · rintro (⟨rfl, rfl⟩ | ⟨before, after, rfl, hfate⟩)
      · exact ⟨[], later, rfl, by rw [List.append_nil]⟩
      · refine ⟨first :: before, after, rfl, ?_⟩
        rwa [List.append_cons]
    · rintro ⟨before, after, hjobs, hfate⟩
      cases before with
      | nil =>
        obtain ⟨rfl, rfl⟩ := List.cons.inj hjobs
        rw [List.append_nil] at hfate
        exact .inl ⟨rfl, hfate⟩
      | cons second before =>
        obtain ⟨rfl, rfl⟩ := List.cons.inj hjobs
        refine .inr ⟨before, after, rfl, ?_⟩
        rwa [List.append_cons] at hfate

/-- A job whose file belongs to an earlier one has no product. -/
theorem fate_late {earlier : List Job} {job : Job} {target : String}
    (htarget : target? options job = some target)
    (hmem : target ∈ earlier.filterMap (target? options)) :
    fate options config earlier job =
      .error ("another template already writes '" ++ target ++ "'") := by
  unfold fate
  rw [htarget, Option.filter_some, if_pos (List.contains_iff_mem.mpr hmem)]

/-- A job whose file belongs to no earlier one has the product of its own text. -/
theorem fate_own {earlier : List Job} {job : Job}
    (h : ∀ target, target? options job = some target →
      target ∉ earlier.filterMap (target? options)) :
    fate options config earlier job =
      (produce options config job.text).mapError CompileFault.message := by
  unfold fate
  cases htarget : target? options job with
  | none => rfl
  | some target => rw [Option.filter_some, if_neg (mt List.contains_iff_mem.mp (h target htarget))]

/-- A job whose file belongs to no earlier one is run by itself. -/
theorem runJob_eq {job : Job} {s : Session}
    (h : ∀ product, produce options config job.text = .ok product →
      (deliver (m := StateM Session) (target? options job) product s).1 = .ok ()) :
    runJob (m := StateM Session) options config job (target? options job) s =
      (succeeds (job, (produce options config job.text).mapError CompileFault.message),
        perform options s
          (job, (produce options config job.text).mapError CompileFault.message)) := by
  unfold runJob perform
  cases hproduct : produce options config job.text with
  | error e => rfl
  | ok product =>
    have hdeliver := h product hproduct
    dsimp only [Except.mapError]
    rw [bind_apply, hdeliver]
    rfl

/-- A run performs the fates of its jobs, and it works if all of them are products. -/
theorem runJobs_eq {jobs earlier : List Job} {claimed : List String}
    (hclaimed : ∀ target, target ∈ claimed ↔ target ∈ earlier.filterMap (target? options))
    {s : Session} (h : Deliverable options (fates options config earlier jobs) s) :
    runJobs (m := StateM Session) options config claimed jobs s =
      ((fates options config earlier jobs).all succeeds,
        (fates options config earlier jobs).foldl (perform options) s) := by
  -- By induction on the jobs, with the files that earlier ones have claimed.
  induction jobs generalizing earlier claimed s with
  | nil => rfl
  | cons job later ih =>
    obtain ⟨hjob, hlater⟩ := h
    -- The job's file is claimed from now on whether or not the job has a product.
    have hclaimed' : ∀ target, target ∈ (target? options job).toList ++ claimed ↔
        target ∈ (earlier ++ [job]).filterMap (target? options) := by
      intro target
      rw [List.filterMap_append, List.mem_append, List.mem_append, hclaimed, or_comm]
      cases htarget : target? options job with
      | none => simp [htarget]
      | some other => simp [htarget]
    have hrest := ih hclaimed' hlater
    unfold runJobs fates
    dsimp only
    split_ifs with hany
    -- The file is claimed, and the job is reported.
    · obtain ⟨target, htarget, hcontains⟩ := (Option.any_eq_true _ _).mp hany
      have hfate : fate options config earlier job =
          .error ("another template already writes '" ++ target ++ "'") :=
        fate_late htarget ((hclaimed target).mp (List.contains_iff_mem.mp hcontains))
      -- The program joins the message from other pieces than the fate does.
      have hmessage : job.path ++ ": another template already writes '" ++ target ++ "'" =
          job.path ++ ": " ++ ("another template already writes '" ++ target ++ "'") := by
        have hwords : ": another template already writes '" =
            ": " ++ "another template already writes '" := rfl
        rw [hwords]
        simp only [String.append_assoc]
      rw [hfate] at hrest ⊢
      rw [htarget, Option.getD_some, hmessage, bind_apply, report_apply]
      rw [htarget] at hrest
      dsimp only
      rw [bind_apply, pure_apply]
      dsimp only
      rw [bind_apply]
      exact congrArg (fun result => (pure (false && result.1) : StateM Session Bool) result.2) hrest
    -- The file is free, and the job is run by itself.
    · have hfate : fate options config earlier job =
          (produce options config job.text).mapError CompileFault.message := by
        refine fate_own fun target htarget hmem => hany ?_
        rw [htarget]
        exact List.contains_iff_mem.mpr ((hclaimed target).mpr hmem)
      rw [hfate] at hjob hrest ⊢
      have hthis := runJob_eq (s := s) fun product hproduct => hjob product (by rw [hproduct]; rfl)
      rw [bind_apply, hthis]
      dsimp only
      rw [bind_apply, hrest]
      rfl

/-- The fates of some jobs print their messages in order. -/
theorem messages_foldl (entries : List (Job × Except String String)) (s : Session) :
    (entries.foldl (perform options) s).messages =
      s.messages ++ String.join (entries.map reported) := by
  induction entries generalizing s with
  | nil => rw [List.map_nil, String.join_nil, String.append_empty, List.foldl_nil]
  | cons entry entries ih =>
    have hentry : (perform options s entry).messages = s.messages ++ reported entry := by
      obtain ⟨job, text | product⟩ := entry
      · rfl
      · exact (messages_deliver ..).trans String.append_empty.symm
    rw [List.foldl_cons, ih, hentry, List.map_cons, String.join_cons, String.append_assoc]

end CommandLine

end HandTemplate
