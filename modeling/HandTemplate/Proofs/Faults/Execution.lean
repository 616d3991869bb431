import HandTemplate.Expansion.Execution
import HandTemplate.Proofs.Faults.Evaluation
import HandTemplate.Proofs.Faults.Statement

/-!
# Faults of runs

Statements that are placed at lexemes are run under two configurations in the same way, and so is a
program, up to a limit that the second configuration may relax. A variation that is one too many is
reported at the last statement of its block; a block without statements lies within a loop, whose
position serves, and a program without statements finishes no variation.
-/

namespace HandTemplate

namespace Expansion

open ExpansionFault (Agree)

variable {W : List Lexeme} {c c' : Config} {p : Position}

/-- In a scope of their own, steps still agree. -/
theorem Agrees.inScope {α : Type} {step step' : Step α} (h : Agrees W c c' step step') :
    Agrees W c c' (inScope step) (inScope step') := by
  intro m
  have hinner := h m.openScope
  change EndAlike W c c' (step (m.under c).openScope) (step' (m.under c').openScope) at hinner
  unfold Expansion.inScope
  generalize step (m.under c).openScope = r at hinner
  generalize step' (m.under c').openScope = r' at hinner
  -- The scope is left again, whether the steps succeed or fail.
  cases hinner with
  | ok a n => exact .ok a n.closeScope
  | error hnames n => exact .error hnames n.closeScope
  | removable hnames he n => exact .removable hnames he n.closeScope _

section
variable {step step' : Value → Step Unit}
  (hstep : ∀ value, Agrees W c c' (step value) (step' value))
include hstep

/-- Loops over the same integers agree if their turns do. -/
theorem forRange_agrees (count : Nat) (first : Int) :
    Agrees W c c' (forRange step count first) (forRange step' count first) := by
  induction count generalizing first with
  | zero => exact .pure ()
  | succ count ih => exact (hstep _).bind fun _ => ih (first + 1)

/-- Loops over the same values agree if their turns do. -/
theorem forValues_agrees (values : List Value) :
    Agrees W c c' (forValues step values) (forValues step' values) := by
  induction values with
  | nil => exact .pure ()
  | cons value values ih => exact (hstep value).bind fun _ => ih

/-- Loops agree if their passes do. -/
theorem forEach_agrees (hrelaxed : c.RelaxedBy c') {source : Expr} (hsource : source.Placed W) :
    Agrees W c c' (forEach source step) (forEach source step') := by
  unfold forEach
  split
  next first last p =>
    exact .get fun _ => (Agrees.ofExcept
      (checkCount_agree hrelaxed hsource.position "range" _)).bind fun _ =>
        forRange_agrees hstep _ _
  · refine (exprValue_agrees hrelaxed .nothing hsource).bind fun value => ?_
    split
    · exact forValues_agrees hstep _
    · exact .throw (e := ⟨.noElements source.words value.type, source.position⟩) hsource.position

end

/-- A value fits its target, or is refused for it, under every configuration. -/
theorem assign_agrees (hp : p.Among W) (binding : Binding) (value : Value) :
    Agrees W c c' (assign binding value p) (assign binding value p) := by
  unfold assign
  split
  · exact .modify fun _ _ => rfl
  next names items =>
    split
    · refine .modify fun m c => ?_
      generalize names.zip items = entries
      induction entries generalizing m with
      | nil => rfl
      | cons entry entries ih => exact ih (m.define entry.1 entry.2)
    · exact .throw (e := ⟨.unbindable names.length (.list items.length), p⟩) hp
  · exact .throw (e := ⟨.unbindable _ _, p⟩) hp

/-- The tiles of an expression are added, or refused, under every configuration. -/
theorem addTiles_agrees (tiles : List String) (first : Nat) (looped : Bool) :
    Agrees W c c' (addTiles tiles first looped) (addTiles tiles first looped) := by
  unfold addTiles
  split
  · exact (Agrees.modify fun _ _ => rfl).bind fun _ => .modify fun _ _ => rfl
  · exact .modify fun _ _ => rfl

/-- A variation is finished under both configurations, unless there are too many for the first. -/
theorem finish_agrees (hrelaxed : c.RelaxedBy c') (hp : p.Among W) :
    Agrees W c c' (finish p) (finish p) :=
  .get fun _ => (Agrees.ofExcept (checkCount_agree hrelaxed hp "variations" _)).bind fun _ =>
    .modify fun _ _ => rfl

/-- Blocks agree if their statements do and there is a statement or a place for the block. -/
theorem block_agrees (hrelaxed : c.RelaxedBy c') {statements : List Statement}
    (hstatements : ∀ s ∈ statements, s.Placed W) (hp : statements = [] → p.Among W)
    {run : Nat → Step Unit} (hrun : ∀ first, Agrees W c c' (run first) (run first)) :
    Agrees W c c' (block statements p run) (block statements p run) := by
  -- The variation is finished at the last statement, or at the block if it has none.
  have hlast : ((statements.getLast?.map Statement.position).getD p).Among W := by
    cases h : statements.getLast? with
    | none => exact hp (List.getLast?_eq_none_iff.1 h)
    | some s => exact (hstatements s (List.mem_of_getLast? h)).position
  refine .get fun before => ?_
  -- The tiles that the block began with are the same in both states.
  have hrestore : Agrees W c c' (modify fun m => { m with buffer := before.buffer })
      (modify fun m => { m with buffer := before.buffer }) := .modify fun _ _ => rfl
  refine (hrun before.variations.size).bind fun _ => ?_
  split
  · refine .get fun m => ?_
    change Agrees W c c' (if m.buffer.isEmpty then _ else _) (if m.buffer.isEmpty then _ else _)
    split
    · exact hrestore
    · exact (finish_agrees hrelaxed hlast).bind fun _ => hrestore
  · exact hrestore

mutual

/-- Statements agree. -/
theorem run_agrees (hrelaxed : c.RelaxedBy c') : {s : Statement} → s.Placed W →
    (first : Nat) → (looped : Bool) → Agrees W c c' (run s first looped) (run s first looped)
  | .assign target _ _, .assign hp hvalue, _, _ =>
    (exprValue_agrees hrelaxed .nothing hvalue).bind fun value => assign_agrees hp target value
  | .foreach binding _ _ _, .foreach hp hsource hbody, _, _ =>
    .nest hrelaxed hp <| forEach_agrees (fun item =>
      .inScope <| (assign_agrees hp binding item).bind fun _ =>
        block_agrees hrelaxed hbody (fun _ => hp) fun first =>
          runAll_agrees hrelaxed hbody first false) hrelaxed hsource
  | .call _ _ _, .call hp harguments, first, looped =>
    (callWith_agrees hrelaxed hp fun fallback =>
      exprValues_agrees hrelaxed fallback harguments).bind fun value => by
        split
        · exact addTiles_agrees _ first looped
        · exact .pure ()

/-- Statements in a row agree. -/
theorem runAll_agrees (hrelaxed : c.RelaxedBy c') : {statements : List Statement} →
    (∀ s ∈ statements, s.Placed W) → (first : Nat) → (looped : Bool) →
      Agrees W c c' (runAll statements first looped) (runAll statements first looped)
  | [], _, _, _ => .pure ()
  | s :: _, hstatements, first, looped =>
    (run_agrees hrelaxed (List.forall_mem_cons.1 hstatements).1 first looped).bind fun _ =>
      runAll_agrees hrelaxed (List.forall_mem_cons.1 hstatements).2 first (looped || s.isLoop)

end

end Expansion

namespace Program

open ExpansionFault (Agree)

variable {W : List Lexeme} {c c' : Config}

/-- The expansions of a program agree. -/
theorem expand_agrees (hrelaxed : c.RelaxedBy c') {program : Program}
    (hbody : ∀ s ∈ program.body, s.Placed W) :
    Agree W c c' (program.expand c) (program.expand c') := by
  obtain ⟨metadata, body⟩ := program
  -- A program without statements has no lexeme for its block, and finishes nothing.
  by_cases hnil : body = []
  · subst hnil
    exact .ok []
  have hrun : Expansion.Agrees W c c' (Expansion.runProgram ⟨metadata, body⟩)
      (Expansion.runProgram ⟨metadata, body⟩) := by
    refine Expansion.Agrees.bind (.modify fun _ _ => rfl) fun _ => ?_
    refine Expansion.Agrees.bind (Expansion.block_agrees hrelaxed hbody (fun h => absurd h hnil)
      fun first => Expansion.runAll_agrees hrelaxed hbody first false) fun _ => ?_
    exact .get fun _ => .pure _
  -- Both expansions start from states that differ in their configurations only.
  have hends := hrun (Expansion.new c)
  change Expansion.EndAlike W c c' (Expansion.runProgram ⟨metadata, body⟩ (Expansion.new c))
    (Expansion.runProgram ⟨metadata, body⟩ (Expansion.new c')) at hends
  unfold expand
  generalize Expansion.runProgram ⟨metadata, body⟩ (Expansion.new c) = r at hends
  generalize Expansion.runProgram ⟨metadata, body⟩ (Expansion.new c') = r' at hends
  cases hends with
  | ok variations => exact .ok variations
  | error hnames => exact .error hnames
  | removable hnames he => exact .removable hnames he _

/-- Every fault of the expansion of a program names a lexeme that the program is placed at. -/
theorem expand_names {program : Program} (hbody : ∀ s ∈ program.body, s.Placed W)
    {e : ExpansionFault} (h : program.expand c = .error e) : e.Names W := by
  have hagree := expand_agrees (.refl c) hbody
  rw [h] at hagree
  cases hagree with
  | error hnames => exact hnames
  | removable hnames => exact hnames

end Program

end HandTemplate
