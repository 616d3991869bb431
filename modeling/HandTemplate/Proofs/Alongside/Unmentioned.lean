import HandTemplate.Proofs.Alongside.Quoting
import HandTemplate.Proofs.Records

/-!
# Metadata that a template does not mention

A value of the metadata reaches the variations of a template in two ways: the body looks up its key,
or it is the name or the description under which the variations stand. So a value whose key the body
does not mention changes no tiles and no fault, whatever it is and whether it is there at all. Main
statement: `Program.expand_unmentioned`.
-/

namespace HandTemplate

namespace Expansion

/-- In the outermost scope a name has its value in the metadata, or else that of a builtin. -/
theorem outermostScope_get? {metadata : Metadata} (hnodup : metadata.names.Nodup) (name : String) :
    (outermostScope metadata).get? name =
      ((metadata.get? name).map Value.ofDatum).or ((outermostScope .empty).get? name) := by
  obtain ⟨entries⟩ := metadata
  change (entries.foldl (fun scope entry => scope.insert entry.1 (.ofDatum entry.2))
    (outermostScope .empty)).get? name =
      ((Record.lookup name entries).map Value.ofDatum).or ((outermostScope .empty).get? name)
  change (entries.map Prod.fst).Nodup at hnodup
  -- By induction on the entries, whatever scope they are stored in.
  generalize outermostScope .empty = scope
  induction entries generalizing scope with
  | nil => rfl
  -- The first entry decides for its own name, since none of the others has that name.
  | cons entry entries ih =>
    obtain ⟨hentry, hothers⟩ := List.nodup_cons.mp hnodup
    rw [List.foldl_cons, ih hothers, Record.get?_insert, Record.lookup]
    split
    next heq =>
      rw [Record.lookup_eq_none (heq ▸ hentry)]
      rfl
    next => rfl

/-- Two expansions under one configuration whose scopes differ at most in one name. -/
def Pairing.except (config : Config) (k : String) : Pairing where
  config := config
  symbolAtoms := config.symbolAtoms
  Alike scope scope' := ∀ name, name ≠ k → scope'.get? name = scope.get? name
  Bindable _ := True
  Excused := False
  empty _ _ := rfl
  insert value _ halike name hname := by
    rw [Record.get?_insert, Record.get?_insert, halike name hname]

/-- Where the name is not looked up, nothing differs. -/
theorem Pairing.except_resolves {config : Config} {k : String} {start : Moment}
    {Mentioned : String → Prop} (hk : ∀ name, Mentioned name → name ≠ k) :
    (except config k).Resolves start (fun _ => false) Mentioned := by
  have hvalue : ∀ {name : String} {m m' : Expansion}, Mentioned name →
      (except config k).Beside m m' → m'.valueOf? name = m.valueOf? name :=
    fun hname hm => hm.valueOf?_eq fun _ _ halike => halike _ (hk _ hname)
  exact ⟨fun hname _ hm => .nameValue (hvalue hname hm) (.inr rfl) hm,
    fun hname hm => .callee (hvalue hname hm) hm, .inr rfl⟩

end Expansion

namespace Program

open Expansion

section
variable {body : List Statement} {k : String} {metadata metadata' : Metadata}
  (hk : k ∉ Statement.mentionedOf body) (hnodup : metadata.names.Nodup)
  (hnodup' : metadata'.names.Nodup)
  (hagree : ∀ key, key ≠ k → metadata'.get? key = metadata.get? key)
include hk hnodup hnodup' hagree

/-- With other metadata under a key that the body does not mention, a program gives the same tiles
or fails with the same fault. -/
theorem expand_retitled (config : Config) :
    Program.expand ⟨metadata', body⟩ config = (Program.expand ⟨metadata, body⟩ config).map
      (List.map fun v => titled ⟨metadata', body⟩ v.tiles) := by
  -- Nothing that the body mentions is looked up under the key, and no other name differs in the
  -- outermost scopes.
  have hresolves : (Pairing.except config k).Resolves (Program.first ⟨metadata, body⟩ config)
      (fun _ => false) (· ∈ Statement.mentionedOf body) :=
    Pairing.except_resolves fun name hname heq => hk (heq ▸ hname)
  have hscope : ∀ name, name ≠ k →
      (outermostScope metadata').get? name = (outermostScope metadata).get? name := by
    intro name hname
    rw [outermostScope_get? hnodup, outermostScope_get? hnodup', hagree name hname]
  have halongside := @expand_alongside (.except config k) (fun _ => false) ⟨metadata, body⟩
    ⟨metadata', body⟩ hresolves (fun _ _ => trivial) hscope (Statement.quotingOf_none body).symm
  cases hexpand : Program.expand ⟨metadata, body⟩ config with
  | ok vs => exact halongside.1 vs hexpand
  | error e => exact (halongside.2 e hexpand).resolve_left id

/-- Two programs with the same body have the same variations, or fail with the same fault, if their
metadata differ at most under a key that the body does not mention; but if the key is that of the
name or of the description, the variations of each program stand under its own. In both records
every key is there once, as in every record into which entries were stored. -/
theorem expand_unmentioned (config : Config) :
    (k ≠ "name" → k ≠ "description" →
      Program.expand ⟨metadata', body⟩ config = Program.expand ⟨metadata, body⟩ config) ∧
    (k = "name" → Program.expand ⟨metadata', body⟩ config =
      (Program.expand ⟨metadata, body⟩ config).map
        (List.map fun v => { v with name := metadata'.text? "name" })) ∧
    (k = "description" → Program.expand ⟨metadata', body⟩ config =
      (Program.expand ⟨metadata, body⟩ config).map
        (List.map fun v => { v with description := metadata'.text? "description" })) := by
  have hretitled := expand_retitled hk hnodup hnodup' hagree config
  have htext : ∀ key, key ≠ k → metadata'.text? key = metadata.text? key := by
    intro key hkey
    rw [Metadata.text?, Metadata.text?, hagree key hkey]
  -- Where the titles are changed in the same way, the variations are.
  have hchange : ∀ change : Variation → Variation,
      (∀ tiles, titled ⟨metadata', body⟩ tiles = change (titled ⟨metadata, body⟩ tiles)) →
        Program.expand ⟨metadata', body⟩ config =
          (Program.expand ⟨metadata, body⟩ config).map (List.map change) := by
    intro change htitled
    rw [hretitled]
    cases hexpand : Program.expand ⟨metadata, body⟩ config with
    | error e => rfl
    | ok vs =>
      obtain ⟨hs, -, rfl⟩ := hands_of_expand hexpand
      refine congrArg Except.ok (List.map_congr_left fun v hv => ?_)
      obtain ⟨tiles, -, rfl⟩ := List.mem_map.mp hv
      exact htitled tiles
  -- The name of a variation is that of the metadata, and so is its description: which of these
  -- changes depends on the key.
  refine ⟨fun hname hdescription => ?_, fun hname => ?_, fun hdescription => ?_⟩
  · have hsame := hchange id fun tiles => by
      simp only [titled, Context.titled, htext "name" (Ne.symm hname),
        htext "description" (Ne.symm hdescription), id]
    rwa [List.map_id_fun, Except.map_id] at hsame
  · refine hchange _ fun tiles => ?_
    simp only [titled, Context.titled, htext "description" (by rw [hname]; decide)]
  · refine hchange _ fun tiles => ?_
    simp only [titled, Context.titled, htext "name" (by rw [hdescription]; decide)]

end

/-- A number under the name is no name, but nothing else changes; neither does anything if the
metadata give a builtin that the body does not call another meaning. -/
theorem expand_unmentioned_name :
    let body : List Statement := [.call "single" [.identifier "wind" ⟨2, 8⟩] ⟨2, 1⟩]
    let metadata : Metadata := .ofList [("wind", .text "E"), ("name", .text "East")]
    "name" ∉ Statement.mentionedOf body ∧ "pair" ∉ Statement.mentionedOf body ∧
      Program.expand ⟨metadata, body⟩ {} = .ok [⟨["E"], some "East", none⟩] ∧
      Program.expand ⟨metadata.insert "name" (.integer 1), body⟩ {} = .ok [⟨["E"], none, none⟩] ∧
      Program.expand ⟨metadata.insert "pair" .null, body⟩ {} =
        .ok [⟨["E"], some "East", none⟩] := by
  intro body metadata
  -- Neither of the two keys is mentioned, though the second one is that of a builtin.
  have hname : "name" ∉ Statement.mentionedOf body := by decide
  have hpair : "pair" ∉ Statement.mentionedOf body := by decide
  have hexpand : Program.expand ⟨metadata, body⟩ {} = .ok [⟨["E"], some "East", none⟩] := by cbv
  have hnodup : metadata.names.Nodup := Record.nodup_names_ofList _
  have hagree : ∀ (k : String) (d : Datum) (key : String), key ≠ k →
      (metadata.insert k d).get? key = metadata.get? key := by
    intro k d key hkey
    rw [Record.get?_insert, if_neg hkey.symm]
  have hnumber := (expand_unmentioned hname hnodup (Record.nodup_names_insert hnodup _ _)
    (hagree "name" (.integer 1)) {}).2.1 rfl
  have hother := (expand_unmentioned hpair hnodup (Record.nodup_names_insert hnodup _ _)
    (hagree "pair" .null) {}).1 (by decide) (by decide)
  rw [hexpand] at hnumber hother
  exact ⟨hname, hpair, hexpand, hnumber, hother⟩

end Program

end HandTemplate
