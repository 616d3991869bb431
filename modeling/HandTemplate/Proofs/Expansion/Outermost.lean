import HandTemplate.Expansion.Execution

/-!
# The outermost scope

The outermost scope of a program binds every builtin under its own name and every value of the
metadata under its key, and nothing else (`outermostScope_forall`).
-/

namespace HandTemplate

namespace Expansion

/-- What holds of all entries that are stored, and of all bindings of the scope that they are stored
in, holds of all bindings afterwards. -/
theorem foldl_insert_forall {P : String → Value → Prop} {entries : List (String × Value)}
    {scope : Scope} (hentries : ∀ entry ∈ entries, P entry.1 entry.2)
    (hscope : ∀ name v, scope.get? name = some v → P name v) :
    ∀ name v, (entries.foldl (fun scope entry => scope.insert entry.1 entry.2) scope).get? name =
      some v → P name v := by
  induction entries generalizing scope with
  | nil => exact hscope
  | cons entry entries ih =>
    obtain ⟨hentry, hothers⟩ := List.forall_mem_cons.mp hentries
    refine ih hothers fun name v hv => ?_
    rw [Record.get?_insert] at hv
    split at hv
    next hname =>
      cases hv
      rwa [← hname]
    next => exact hscope name v hv

/-- What holds of the builtins under their own names and of the metadata under their keys holds of
all bindings of the outermost scope. -/
theorem outermostScope_forall {P : String → Value → Prop} {metadata : Metadata}
    (hbuiltins : ∀ b ∈ Builtin.all, P b.name (.builtin b.name))
    (hmetadata : ∀ entry ∈ metadata.entries, P entry.1 (.ofDatum entry.2)) :
    ∀ name v, (outermostScope metadata).get? name = some v → P name v := by
  have hown : ∀ name v,
      (Record.ofList (Builtin.all.map fun b => (b.name, Value.builtin b.name))).get? name = some v →
        P name v := by
    refine foldl_insert_forall (fun entry hentry => ?_) fun _ _ h => nomatch h
    obtain ⟨b, hb, rfl⟩ := List.mem_map.mp hentry
    exact hbuiltins b hb
  have hentries : ∀ entry ∈ metadata.entries.map fun entry => (entry.1, Value.ofDatum entry.2),
      P entry.1 entry.2 := by
    intro entry hentry
    obtain ⟨stored, hstored, rfl⟩ := List.mem_map.mp hentry
    exact hmetadata stored hstored
  have hscope := foldl_insert_forall hentries hown
  rwa [List.foldl_map] at hscope

end Expansion

end HandTemplate
