import HandTemplate.Proofs.Alongside.Quoting

/-!
# Atoms

A name that nothing binds stands for the tile code of the same name, so that it may as well be
quoted: a template gives the same variations then. If all such names are quoted, and all others are
bound where they are looked up, nothing stands for itself any more and the configuration need not
allow it. Main statement: `Program.expand_quoting`.
-/

namespace HandTemplate

/-- Whether a name is that of no builtin and of no value of the metadata, and is bound nowhere. -/
def Program.isAtom (program : Program) (name : String) : Bool :=
  name ∉ Builtin.all.map Builtin.name ∧ name ∉ program.metadata.names ∧
    name ∉ Statement.boundOf program.body

namespace Expansion

/-- Two expansions with the same scopes, in which some names are bound nowhere. Nothing is said of
the second one where the first one fails. -/
def Pairing.quoted (config : Config) (symbolAtoms : Bool) (atoms : String → Bool) : Pairing where
  config := config
  symbolAtoms := symbolAtoms
  Alike scope scope' := scope' = scope ∧ ∀ name, atoms name = true → scope.get? name = none
  Bindable name := atoms name = false
  Excused := True
  empty := ⟨rfl, fun _ _ => rfl⟩
  insert := by
    rintro scope _ name value hname ⟨rfl, hnone⟩
    refine ⟨rfl, fun other hother => ?_⟩
    rw [Record.get?_insert, if_neg fun h => ?_, hnone other hother]
    rw [← h, hname] at hother
    cases hother

variable {config : Config} {symbolAtoms : Bool} {atoms : String → Bool} {m m' : Expansion}

/-- An atom is bound nowhere. -/
theorem Pairing.Beside.atom_unbound (hm : (quoted config symbolAtoms atoms).Beside m m')
    {name : String} (hname : atoms name = true) : m.valueOf? name = none := by
  have hscopes := hm.scopes
  unfold Expansion.valueOf? lookup
  generalize m.scopes = scopes, m'.scopes = scopes' at hscopes ⊢
  induction hscopes with
  | nil => rfl
  | cons halike _ ih => rw [List.findSome?_cons, halike.2 name hname, ih]

/-- An atom that stands for itself is the tile code of the same name, and all other names have the
same values; these have to be bound if nothing may stand for itself in the second expansion. -/
theorem Pairing.quoted_resolves {start : Moment} {Mentioned : String → Prop}
    (hsymbol : ∀ {name : String} {p : Position} {fallback : Fallback} {m : Expansion},
      start.Reaches ⟨.value (.identifier name p) fallback, m⟩ → atoms name = false →
        (m.valueOf? name).isSome ∨ symbolAtoms = config.symbolAtoms) :
    (quoted config symbolAtoms atoms).Resolves start atoms Mentioned where
  name := by
    intro name p fallback m m' _ hreach hm
    cases hatom : atoms name with
    -- Any other name has the same value in both, or none.
    | false =>
      rw [Expr.quoting, hatom]
      exact .nameValue (hm.valueOf?_eq fun _ _ h => by rw [h.1]) (hsymbol hreach hatom) hm
    -- An atom is bound nowhere, so the first expansion takes it for a symbol of the same text, if
    -- it may; the second one has a tile of that text.
    | true =>
      rw [Expr.quoting, hatom, exprValue]
      unfold nameValue
      rw [bind_apply, get_apply]
      dsimp only
      rw [hm.atom_unbound hatom]
      dsimp only
      split
      · exact .ok hm
      · exact .excused trivial
  callee := fun _ hm => .callee (hm.valueOf?_eq fun _ _ h => by rw [h.1]) hm
  source := .inl trivial

end Expansion

namespace Program

open Expansion

/-- An atom is not bound in the outermost scope. -/
theorem outermostScope_atom {program : Program} {name : String}
    (hname : program.isAtom name = true) : (outermostScope program.metadata).get? name = none := by
  obtain ⟨hbuiltin, hmetadata, -⟩ := of_decide_eq_true hname
  have hbound : ∀ other v, (outermostScope program.metadata).get? other = some v →
      other ≠ name := by
    refine outermostScope_forall (fun b hb heq => ?_) fun entry hentry heq => ?_
    · exact hbuiltin (List.mem_map.mpr ⟨b, hb, heq⟩)
    · exact hmetadata (List.mem_map.mpr ⟨entry, hentry, heq⟩)
  cases hget : (outermostScope program.metadata).get? name with
  | none => rfl
  | some v => exact absurd rfl (hbound name v hget)

/-- A program in which atoms are quoted gives the variations of the program. -/
theorem expand_quoting_atoms {program : Program} {config : Config} {symbolAtoms : Bool}
    {atoms : String → Bool} (hatoms : ∀ name, atoms name = true → program.isAtom name = true)
    (hsymbol : ∀ {name : String} {p : Position} {fallback : Fallback} {m : Expansion},
      (program.first config).Reaches ⟨.value (.identifier name p) fallback, m⟩ →
        atoms name = false → (m.valueOf? name).isSome ∨ symbolAtoms = config.symbolAtoms)
    {vs : List Variation} (h : program.expand config = .ok vs) :
    (program.quoting atoms).expand { config with symbolAtoms } = .ok vs := by
  -- What statements bind is no atom by definition, and neither is what the outermost scope binds.
  have hbound : ∀ x ∈ Statement.boundOf program.body, atoms x = false := by
    intro x hx
    refine Bool.eq_false_iff.mpr fun hatom => ?_
    obtain ⟨-, -, hunbound⟩ := of_decide_eq_true (hatoms x hatom)
    exact hunbound hx
  have hscope : (Pairing.quoted config symbolAtoms atoms).Alike (outermostScope program.metadata)
      (outermostScope program.metadata) :=
    ⟨rfl, fun name hname => outermostScope_atom (hatoms name hname)⟩
  have halongside := @expand_alongside (.quoted config symbolAtoms atoms) atoms program
    (program.quoting atoms) (Pairing.quoted_resolves hsymbol) hbound hscope rfl
  rw [← map_titled h]
  exact halongside.1 vs h

/-- If a program has variations, it has the same ones when any of its atoms are quoted. If all of
its atoms are quoted, and every other name is bound whenever it is evaluated in the program, it has
them also where no name may stand for itself. -/
theorem expand_quoting {program : Program} {config : Config} {vs : List Variation}
    (h : program.expand config = .ok vs) :
    (∀ atoms : String → Bool, (∀ name, atoms name = true → program.isAtom name = true) →
      (program.quoting atoms).expand config = .ok vs) ∧
    ((∀ name p fallback m,
      (program.first config).Reaches ⟨.value (.identifier name p) fallback, m⟩ →
        program.isAtom name = false → (m.valueOf? name).isSome = true) →
      (program.quoting program.isAtom).expand { config with symbolAtoms := false } = .ok vs) :=
  ⟨fun _ hatoms => expand_quoting_atoms hatoms (fun _ _ => .inr rfl) h,
    fun hbound => expand_quoting_atoms (fun _ hname => hname)
      (fun hreach hname => .inl (hbound _ _ _ _ hreach hname)) h⟩

/-- A tile code is made of an atom and a value of the metadata. Quoted, the atom gives the same
tile, and it has to be quoted where no name may stand for itself. -/
theorem expand_quoting_single :
    let program : Program := ⟨.ofList [("wind", .text "E")],
      [.call "single" [.identifier "N" ⟨1, 8⟩, .identifier "wind" ⟨1, 11⟩] ⟨1, 1⟩]⟩
    let strict : Config := { symbolAtoms := false }
    let vs : List Variation := [⟨["NE"], none, none⟩]
    program.expand {} = .ok vs ∧ (program.quoting (· = "N")).expand {} = .ok vs ∧
      (program.quoting program.isAtom).expand strict = .ok vs ∧
        program.expand strict = .error ⟨.unboundName "N", ⟨1, 8⟩⟩ := by
  intro program strict vs
  have hexpand : program.expand {} = .ok vs := by cbv
  have hstrict : program.expand strict = .error ⟨.unboundName "N", ⟨1, 8⟩⟩ := by cbv
  -- The atom is neither a builtin nor a field of the metadata, and the call does not bind it.
  have hatom : ∀ name, (decide (name = "N")) = true → program.isAtom name = true := by
    intro name hname
    rw [of_decide_eq_true hname]
    decide
  have hbound : ∀ name p fallback m,
      (program.first {}).Reaches ⟨.value (.identifier name p) fallback, m⟩ →
        program.isAtom name = false → (m.valueOf? name).isSome = true := by
    intro name p fallback m hreach hname
    -- The block comes to its call, which comes to one argument after the other.
    obtain ⟨_, hblock, hreach⟩ := hreach.cases_head.resolve_left (by simp [first])
    cases hblock
    obtain ⟨_, hstatement, hreach⟩ := hreach.cases_head.resolve_left (by simp)
    cases hstatement with
    -- No statement follows the call.
    | remaining =>
      obtain ⟨_, hnone, -⟩ := hreach.cases_head.resolve_left (by simp)
      cases hnone
    | statement =>
      obtain ⟨_, hcalled, hreach⟩ := hreach.cases_head.resolve_left (by simp)
      cases hcalled
      obtain ⟨_, harguments, hreach⟩ := hreach.cases_head.resolve_left (by simp)
      cases harguments
      obtain ⟨_, hvalue, hreach⟩ := hreach.cases_head.resolve_left (by simp)
      cases hvalue with
      | value =>
        obtain heq | ⟨_, hnone, -⟩ := hreach.cases_head
        -- The first argument is the atom, which need not be bound.
        · cases heq
          cases hname
        · cases hnone
      | values =>
        obtain ⟨_, hvalue, hreach⟩ := hreach.cases_head.resolve_left (by simp)
        cases hvalue with
        | value =>
          obtain heq | ⟨_, hnone, -⟩ := hreach.cases_head
          -- The second one is bound by the metadata.
          · cases heq
            rfl
          · cases hnone
        -- There is no third argument.
        | values =>
          obtain ⟨_, hnone, -⟩ := hreach.cases_head.resolve_left (by simp)
          cases hnone
  obtain ⟨hany, hall⟩ := expand_quoting hexpand
  exact ⟨hexpand, hany _ hatom, hall hbound, hstrict⟩

end Program

end HandTemplate
