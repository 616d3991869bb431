import HandTemplate.Proofs.Nesting.Loops

/-!
# Templates of nested loops

A template of loops over literals, nested directly inside one another around group calls, makes one
variation for every way to choose one element of each source. The variations come in the order of
these choices, the outermost loop's changing most slowly. Main statement: `expand_product`.
-/

namespace HandTemplate

/-- A template of loops nested directly inside one another around group calls. -/
structure LoopNest where
  /-- The metadata. -/
  metadata : Metadata
  /-- The loops, the outermost first. -/
  loops : List Loop
  /-- The body of the innermost loop. -/
  calls : List GroupCall

namespace LoopNest

open Context

/-- The program of the template. -/
def program (t : LoopNest) : Program :=
  ⟨t.metadata, nested (t.loops.map Loop.level) (t.calls.map GroupCall.statement)⟩

/-- A name that is bound nowhere in the template and may stand for itself. -/
def Atom (t : LoopNest) (config : Config) (name : String) : Prop :=
  (ofProgram t.program config).Unbound name ∧ ∀ l ∈ t.loops, l.name ≠ name

/-- The context of the group calls in the pass for chosen elements. -/
def pass (t : LoopNest) (config : Config) (choice : List Value) : Context :=
  (ofProgram t.program config).within t.loops choice

variable {t : LoopNest} {config : Config} {items : List (List Value)}

/-- In every pass builtins are bound under their own names only. -/
theorem pass_ownNames
    (hsources : List.Forall₂ (fun l vs => l.source.Lists (t.Atom config) vs) t.loops items)
    {choice : List Value} (hchoice : choice ∈ choices items) :
    (t.pass config choice).OwnNames := by
  have hitems : ∀ vs ∈ items, ∀ v ∈ vs, ∀ bound, v ≠ .builtin bound := by
    clear hchoice
    generalize t.loops = loops at hsources
    induction hsources with
    | nil => exact List.forall_mem_nil _
    | cons hfirst _ ih => exact List.forall_mem_cons.mpr ⟨hfirst.ne_builtin, ih⟩
  refine within_ownNames (ofProgram_ownNames t.program config) fun v hv => ?_
  obtain ⟨vs, hvs, hmem⟩ := mem_of_mem_choices hchoice hv
  exact hitems vs hvs v hmem

/-- The template has one hand for every choice, in the order of the choices. -/
theorem hands_program
    (hsources : List.Forall₂ (fun l vs =>
      l.source.Lists (t.Atom config) vs ∧ vs.length ≤ config.maxItems) t.loops items)
    (hdepth : t.loops.length < config.maxDepth)
    (hbody : ∀ choice ∈ choices items, ∃ tiles,
      (t.pass config choice).groupTiles t.calls = .ok tiles ∧ tiles ≠ []) :
    ∃ hs, (ofProgram t.program config).hands t.program.body [] = .ok hs ∧
      List.Forall₂ (fun choice tiles => (t.pass config choice).groupTiles t.calls = .ok tiles)
        (choices items) hs := by
  have hvisits : (ofProgram t.program config).Visits t.loops items :=
    visits_of_lists hsources (fun _ hname => hname) (by simpa [ofProgram] using hdepth)
  refine hands_loops hvisits fun choice hchoice => ?_
  obtain ⟨tiles, htiles, hne⟩ := hbody choice hchoice
  exact ⟨tiles, htiles, hands_calls htiles hne⟩

/-- Group calls whose sequences have lengths without loop variables have the same sizes in all
passes. -/
theorem exists_sizes
    (hsources : List.Forall₂ (fun l vs => l.source.Lists (t.Atom config) vs) t.loops items)
    (hbody : ∀ choice ∈ choices items, ∃ tiles,
      (t.pass config choice).groupTiles t.calls = .ok tiles)
    (hlengths : ∀ g ∈ t.calls, g.shape = .sequence → ∀ length, g.arguments[2]? = some length →
      ∀ l ∈ t.loops, l.name ∉ length.names) :
    ∃ sizes, ∀ choice ∈ choices items, List.Forall₂ (t.pass config choice).HasSize t.calls sizes ∧
      ∀ tiles, (t.pass config choice).groupTiles t.calls = .ok tiles →
        tiles.length = sizes.sum := by
  have hsizes : ∀ choice ∈ choices items, ∀ tiles,
      (t.pass config choice).groupTiles t.calls = .ok tiles →
        ∃ sizes, List.Forall₂ (t.pass config choice).HasSize t.calls sizes ∧
          tiles.length = sizes.sum :=
    fun choice hchoice tiles htiles => groupTiles_hasSizes (pass_ownNames hsources hchoice) htiles
  cases hnone : choices items with
  | nil => exact ⟨[], List.forall_mem_nil _⟩
  | cons first others =>
    -- The sizes in the first pass are those in every other one.
    have hfirst : first ∈ choices items := by
      rw [hnone]
      exact List.mem_cons_self ..
    obtain ⟨tiles, htiles⟩ := hbody first hfirst
    obtain ⟨sizes, hfirstSizes, -⟩ := hsizes first hfirst tiles htiles
    have hsame : ∀ choice sizes', List.Forall₂ (t.pass config choice).HasSize t.calls sizes' →
        sizes = sizes' := by
      refine fun choice sizes' => hasSizes_unique (fun g hg hshape length hlength => ?_) hfirstSizes
      have hnames : ∀ name ∈ length.names, ∀ l ∈ t.loops, l.name ≠ name :=
        fun name hname l hl heq => hlengths g hg hshape length hlength l hl (heq ▸ hname)
      exact (within_agree hnames _ first).trans (within_agree hnames _ choice).symm
    rw [← hnone]
    refine ⟨sizes, fun choice hchoice => ?_⟩
    constructor
    · obtain ⟨tiles', htiles'⟩ := hbody choice hchoice
      obtain ⟨sizes', hsizes', -⟩ := hsizes choice hchoice tiles' htiles'
      rwa [hsame choice sizes' hsizes']
    · intro tiles' htiles'
      obtain ⟨sizes', hsizes', hlength⟩ := hsizes choice hchoice tiles' htiles'
      rw [hlength, hsame choice sizes' hsizes']

/-- A template of loops over literals of at most `maxItems` elements each, nested directly inside
one another around group calls that have tiles in every pass, has a variation for every choice of
one element from each loop, if these are at most `maxItems`. The variation at place `j` has the
tiles of the group calls for the elements at the digits of `j` in mixed radix, the digit of the
outermost loop being the most significant one. If there are more choices, the expansion fails with
the first variation too many. If no length of a sequence mentions a loop variable, all variations
have the same number of tiles, the sum of the group calls' sizes. -/
theorem expand_product (t : LoopNest) (config : Config) (items : List (List Value))
    (hsources : List.Forall₂ (fun l vs =>
      l.source.Lists (t.Atom config) vs ∧ vs.length ≤ config.maxItems) t.loops items)
    (hdepth : t.loops.length < config.maxDepth)
    (hbody : ∀ choice ∈ choices items, ∃ tiles,
      (t.pass config choice).groupTiles t.calls = .ok tiles ∧ tiles ≠ []) :
    let count := (items.map List.length).prod
    (count ≤ config.maxItems → ∃ vs, t.program.expand config = .ok vs ∧ vs.length = count ∧
      ∀ j < count, ∃ choice tiles,
        choice.map some =
          List.zipWith (fun vs d => vs[d]?) items (digits (items.map List.length) j) ∧
        (t.pass config choice).groupTiles t.calls = .ok tiles ∧
        vs[j]? = some ⟨tiles, t.metadata.text? "name", t.metadata.text? "description"⟩) ∧
    (config.maxItems < count → ∃ p, t.program.expand config =
      .error ⟨.tooMany "variations" (config.maxItems + 1) config.maxItems, p⟩) ∧
    ((∀ g ∈ t.calls, g.shape = .sequence → ∀ length, g.arguments[2]? = some length →
        ∀ l ∈ t.loops, l.name ∉ length.names) →
      ∃ sizes, (∀ choice ∈ choices items,
          List.Forall₂ (t.pass config choice).HasSize t.calls sizes) ∧
        ∀ vs, t.program.expand config = .ok vs → ∀ v ∈ vs, v.tiles.length = sizes.sum) := by
  -- One hand for each choice, in their order: the three parts are about these hands.
  intro count
  obtain ⟨hs, hhs, hchoices⟩ := hands_program hsources hdepth hbody
  have hcount : hs.length = count := by rw [← hchoices.length_eq, length_choices]
  obtain ⟨hexpand, hoverrun⟩ := Program.expand_of_hands hhs
  rw [hcount] at hexpand hoverrun
  refine ⟨fun hfits => ⟨_, hexpand hfits, by rw [List.length_map, hcount], fun j hj => ?_⟩,
    hoverrun, fun hlengths => ?_⟩
  -- The choice at place `j` is the one whose places are the digits of `j`.
  · obtain ⟨choice, hchoice, hdigits⟩ := getElem?_choices items hj
    obtain ⟨hplace, hget⟩ := List.getElem?_eq_some_iff.mp hchoice
    have hj' : j < hs.length := by rwa [hcount]
    have htiles : (t.pass config (choices items)[j]).groupTiles t.calls = .ok hs[j] :=
      hchoices.get hplace hj'
    rw [hget] at htiles
    refine ⟨choice, hs[j], hdigits, htiles, ?_⟩
    rw [List.getElem?_map, List.getElem?_eq_getElem hj']
    rfl
  -- Each hand has as many tiles as the sizes sum up to, and these are the same for all choices.
  · obtain ⟨sizes, hsizes⟩ := exists_sizes (hsources.imp fun _ _ h => h.1)
      (fun choice hchoice => (hbody choice hchoice).imp fun _ h => h.1) hlengths
    refine ⟨sizes, fun choice hchoice => (hsizes choice hchoice).1, fun vs hvs v hv => ?_⟩
    obtain ⟨hs', hhs', rfl⟩ := Program.hands_of_expand hvs
    rw [hhs] at hhs'
    cases hhs'
    obtain ⟨tiles, htiles, rfl⟩ := List.mem_map.mp hv
    obtain ⟨j, hj, rfl⟩ := List.mem_iff_getElem.mp htiles
    have hj' : j < (choices items).length := by rwa [hchoices.length_eq]
    have hmade : (t.pass config (choices items)[j]).groupTiles t.calls = .ok hs[j] :=
      hchoices.get hj' hj
    exact (hsizes _ (List.getElem_mem hj')).2 _ hmade

/-- Two suits and two numbers make four variations, of which the third one has the first number of
the second suit. They are one too many where three are allowed. -/
theorem expand_product_suits :
    let t : LoopNest :=
      ⟨.empty, [⟨"s", .tuple [.tile "b" ⟨1, 12⟩, .tile "c" ⟨1, 17⟩] ⟨1, 11⟩, ⟨1, 1⟩⟩,
        ⟨"n", .range 1 2 ⟨2, 11⟩, ⟨2, 1⟩⟩],
        [⟨.pair, [.identifier "n" ⟨3, 6⟩, .identifier "s" ⟨3, 9⟩], ⟨3, 1⟩⟩,
        ⟨.sequence, [.number 1 ⟨4, 10⟩, .identifier "s" ⟨4, 13⟩, .number 3 ⟨4, 16⟩], ⟨4, 1⟩⟩]⟩
    (∃ vs, t.program.expand {} = .ok vs ∧ vs.length = 4 ∧
      vs[2]? = some ⟨["1c", "1c", "1c", "2c", "3c"], none, none⟩ ∧
      ∀ v ∈ vs, v.tiles.length = 5) ∧
    ∃ p, t.program.expand { maxItems := 3 } = .error ⟨.tooMany "variations" 4 3, p⟩ := by
  intro t
  let items : List (List Value) := [[.symbol "b", .symbol "c"], (Number.range 1 2).map .integer]
  have hsources : ∀ config : Config, 2 ≤ config.maxItems → List.Forall₂ (fun l vs =>
      l.source.Lists (t.Atom config) vs ∧ vs.length ≤ config.maxItems) t.loops items :=
    fun config hlimit =>
      .cons ⟨.tuple (.cons .tile (.cons .tile .nil)), hlimit⟩ (.cons ⟨.range, hlimit⟩ .nil)
  have hchoices : choices items = [[.symbol "b", .integer 1], [.symbol "b", .integer 2],
      [.symbol "c", .integer 1], [.symbol "c", .integer 2]] := by cbv
  have hbody : ∀ config ∈ [({} : Config), { maxItems := 3 }], ∀ choice ∈ choices items, ∃ tiles,
      (t.pass config choice).groupTiles t.calls = .ok tiles ∧ tiles ≠ [] := by
    -- The tiles of each of the four passes, under either limit.
    rw [hchoices]
    simp only [List.forall_mem_cons, List.not_mem_nil, false_implies, implies_true, and_true]
    refine ⟨⟨?_, ?_, ?_, ?_⟩, ?_, ?_, ?_, ?_⟩
    · exact ⟨["1b", "1b", "1b", "2b", "3b"], by cbv, List.cons_ne_nil _ _⟩
    · exact ⟨["2b", "2b", "1b", "2b", "3b"], by cbv, List.cons_ne_nil _ _⟩
    · exact ⟨["1c", "1c", "1c", "2c", "3c"], by cbv, List.cons_ne_nil _ _⟩
    · exact ⟨["2c", "2c", "1c", "2c", "3c"], by cbv, List.cons_ne_nil _ _⟩
    · exact ⟨["1b", "1b", "1b", "2b", "3b"], by cbv, List.cons_ne_nil _ _⟩
    · exact ⟨["2b", "2b", "1b", "2b", "3b"], by cbv, List.cons_ne_nil _ _⟩
    · exact ⟨["1c", "1c", "1c", "2c", "3c"], by cbv, List.cons_ne_nil _ _⟩
    · exact ⟨["2c", "2c", "1c", "2c", "3c"], by cbv, List.cons_ne_nil _ _⟩
  obtain ⟨hall, -, hsizes⟩ := expand_product t {} items (hsources {} (by decide)) (by decide)
    (hbody {} (by simp))
  obtain ⟨-, hmany, -⟩ := expand_product t { maxItems := 3 } items (hsources _ (by decide))
    (by decide) (hbody { maxItems := 3 } (by simp))
  obtain ⟨vs, hvs, hcount, hdigits⟩ := hall (by decide)
  obtain ⟨choice, tiles, hchoice, htiles, hplace⟩ := hdigits 2 (by decide)
  obtain rfl : choice = [.symbol "c", .integer 1] :=
    List.map_injective_iff.mpr (fun _ _ => Option.some.inj) (hchoice.trans (by cbv))
  have hmade : (t.pass {} [.symbol "c", .integer 1]).groupTiles t.calls =
      .ok ["1c", "1c", "1c", "2c", "3c"] := by cbv
  rw [hmade] at htiles
  cases htiles
  -- The lengths of all variations are that of the third one.
  obtain ⟨sizes, -, hlengths⟩ := hsizes (by decide)
  have hthird := hlengths vs hvs _ (List.mem_of_getElem? hplace)
  exact ⟨⟨vs, hvs, hcount, hplace, fun v hv => (hlengths vs hvs v hv).trans hthird.symm⟩,
    hmany (by decide)⟩

end LoopNest

end HandTemplate
