import HandTemplate.Builtin
import HandTemplate.Proofs.Orderings

/-!
# Orderings by their places

The orderings of a list take its elements from the places of a permutation, one permutation after
another in lexicographic order. Equal elements are not merged, for their places differ. Main
statement: `permutations_lists`.
-/

namespace HandTemplate

namespace Orderings

variable {α β : Type}

/-- No elements have one ordering. -/
@[simp] theorem all_nil : all ([] : List α) = [[]] := by
  rw [all]
  rfl

/-- The orderings that begin with each of the elements in turn. -/
theorem all_of_ne_nil {xs : List α} (h : xs ≠ []) :
    all xs = (selections xs).flatMap fun chosen => (all chosen.2).map (chosen.1 :: ·) := by
  rw [all, if_neg (by simpa using h)]
  calc (selections xs).attach.flatMap (fun chosen => (all chosen.1.2).map (chosen.1.1 :: ·))
      = ((selections xs).attach.map Subtype.val).flatMap
          fun chosen => (all chosen.2).map (chosen.1 :: ·) := by rw [List.flatMap_map]
    _ = _ := by rw [List.attach_map_subtype_val]

/-- Induction on what is left after an element is selected. -/
@[elab_as_elim]
theorem all_induction {P : List α → Prop} (nil : P [])
    (selected : ∀ xs, xs ≠ [] → (∀ chosen ∈ selections xs, P chosen.2) → P xs) (xs : List α) :
    P xs := by
  fun_induction all xs with
  | case1 xs hempty => rwa [List.isEmpty_iff.mp hempty]
  | case2 xs hne ih =>
    exact selected xs (by simpa using hne) fun chosen hchosen => ih ⟨chosen, hchosen⟩

/-! ## Selections -/

/-- Elements are selected before or after they are changed. -/
theorem selections_map (f : α → β) (xs : List α) :
    selections (xs.map f) = (selections xs).map fun chosen => (f chosen.1, chosen.2.map f) := by
  induction xs with
  | nil => rfl
  | cons x xs ih => simp [selections, ih, Function.comp_def]

/-- Selecting an element takes nothing else away. -/
theorem perm_of_mem_selections {xs : List α} {chosen : α × List α} (h : chosen ∈ selections xs) :
    (chosen.1 :: chosen.2).Perm xs := by
  induction xs generalizing chosen with
  | nil => cases h
  | cons x xs ih =>
    rcases List.mem_cons.mp h with rfl | h
    · exact .refl _
    · obtain ⟨inner, hinner, rfl⟩ := List.mem_map.mp h
      exact (List.Perm.swap ..).trans ((ih hinner).cons x)

/-- Every element is selected. -/
theorem exists_mem_selections {xs : List α} {x : α} (h : x ∈ xs) :
    ∃ others, (x, others) ∈ selections xs := by
  induction xs with
  | nil => cases h
  | cons y xs ih =>
    rcases List.mem_cons.mp h with rfl | h
    · exact ⟨xs, List.mem_cons_self ..⟩
    · obtain ⟨others, hothers⟩ := ih h
      exact ⟨y :: others, List.mem_cons_of_mem _ (List.mem_map_of_mem hothers)⟩

/-- The last element is selected last. -/
theorem selections_concat (xs : List α) (x : α) :
    selections (xs ++ [x]) =
      (selections xs).map (fun chosen => (chosen.1, chosen.2 ++ [x])) ++ [(x, xs)] := by
  induction xs with
  | nil => rfl
  | cons y xs ih => simp [selections, ih, Function.comp_def]

/-- Of ascending elements, the selected ones ascend, and those that are left do so too. -/
theorem selections_ascending {r : α → α → Prop} {xs : List α} (h : xs.Pairwise r) :
    (selections xs).Pairwise (fun c d => r c.1 d.1) ∧ ∀ c ∈ selections xs, c.2.Pairwise r := by
  induction h with
  | nil => exact ⟨.nil, fun _ hc => nomatch hc⟩
  | @cons x xs hx hxs ih =>
    obtain ⟨hchosen, hothers⟩ := ih
    refine ⟨.cons ?_ (List.pairwise_map.mpr hchosen), ?_⟩
    · intro d hd
      obtain ⟨c, hc, rfl⟩ := List.mem_map.mp hd
      exact hx _ ((perm_of_mem_selections hc).subset (List.mem_cons_self ..))
    · intro c hc
      rcases List.mem_cons.mp hc with rfl | hc
      · exact hxs
      · obtain ⟨d, hd, rfl⟩ := List.mem_map.mp hc
        refine .cons (fun y hy => ?_) (hothers d hd)
        exact hx y ((perm_of_mem_selections hd).subset (List.mem_cons_of_mem _ hy))

/-! ## Orderings -/

/-- Orderings of replaced elements are the orderings with their elements replaced. -/
theorem all_map (f : α → β) (xs : List α) : all (xs.map f) = (all xs).map (List.map f) := by
  induction xs using all_induction with
  | nil => simp
  | selected xs hne ih =>
    rw [all_of_ne_nil (by simpa using hne), all_of_ne_nil hne, selections_map, List.flatMap_map,
      List.map_flatMap]
    refine List.flatMap_congr fun chosen hchosen => ?_
    rw [ih chosen hchosen, List.map_map, List.map_map]
    rfl

/-- The orderings of a list are its rearrangements. -/
theorem mem_all {xs ordering : List α} : ordering ∈ all xs ↔ ordering.Perm xs := by
  -- By induction on the list as its orderings are made: one element is chosen, and the rest is
  -- ordered.
  induction xs using all_induction generalizing ordering with
  | nil => rw [all_nil, List.mem_singleton, List.perm_nil]
  | selected xs hne ih =>
    rw [all_of_ne_nil hne, List.mem_flatMap]
    constructor
    · rintro ⟨chosen, hchosen, h⟩
      obtain ⟨rest, hrest, rfl⟩ := List.mem_map.mp h
      exact (((ih chosen hchosen).mp hrest).cons _).trans (perm_of_mem_selections hchosen)
    · -- The first element of a rearrangement is selected, and the others rearrange what is left.
      intro h
      cases ordering with
      | nil => exact absurd (List.nil_perm.mp h) hne
      | cons x rest =>
        obtain ⟨others, hothers⟩ := exists_mem_selections (h.subset (List.mem_cons_self ..))
        have hrest : rest.Perm others :=
          (h.trans (perm_of_mem_selections hothers).symm).cons_inv
        exact ⟨(x, others), hothers, List.mem_map_of_mem ((ih _ hothers).mpr hrest)⟩

/-- The orderings of ascending elements ascend lexicographically. -/
theorem all_ascending {r : α → α → Prop} {xs : List α} (h : xs.Pairwise r) :
    (all xs).Pairwise (List.Lex r) := by
  induction xs using all_induction with
  | nil => simp
  | selected xs hne ih =>
    obtain ⟨hchosen, hothers⟩ := selections_ascending h
    rw [all_of_ne_nil hne, List.pairwise_flatMap]
    -- Orderings with one first element ascend by the others, those with different ones by it.
    refine ⟨fun c hc => List.pairwise_map.mpr ((ih c hc (hothers c hc)).imp .cons), ?_⟩
    refine hchosen.imp fun hlt first hfirst second hsecond => ?_
    obtain ⟨_, -, rfl⟩ := List.mem_map.mp hfirst
    obtain ⟨_, -, rfl⟩ := List.mem_map.mp hsecond
    exact .rel hlt

/-- The list itself is the first of its orderings. -/
theorem head?_all (xs : List α) : (all xs).head? = some xs := by
  induction xs with
  | nil => simp
  | cons x xs ih =>
    rw [all_of_ne_nil (List.cons_ne_nil x xs), selections, List.flatMap_cons, List.head?_append,
      List.head?_map, ih]
    rfl

/-- The reverse of a list is the last of its orderings. -/
theorem getLast?_all (xs : List α) : (all xs).getLast? = some xs.reverse := by
  induction xs using List.reverseRecOn with
  | nil => simp
  | append_singleton xs x ih =>
    rw [all_of_ne_nil (by simp), selections_concat, List.flatMap_append, List.flatMap_singleton,
      List.getLast?_append, List.getLast?_map, ih, List.reverse_append]
    rfl

/-- The orderings of a list take its elements from the orderings of its places. -/
theorem all_eq_map_places (xs : List α) :
    all xs = (all (List.finRange xs.length)).map (List.map xs.get) := by
  rw [← all_map, List.map_get_finRange]

/-- Elements of which no two are the same have orderings of which no two are the same. -/
theorem all_distinct {same : α → α → Prop} {xs : List α}
    (h : xs.Pairwise fun x y => ¬ same x y ∧ ¬ same y x) :
    (all xs).Pairwise fun a b => ¬ List.Forall₂ same a b := by
  -- Elements that are the same are at the same place.
  have hplace : ∀ i j, same (xs.get i) (xs.get j) → i = j := by
    intro i j hsame
    rw [List.pairwise_iff_get] at h
    rcases Nat.lt_trichotomy i j with hlt | heq | hgt
    · exact absurd hsame (h i j hlt).1
    · exact Fin.ext heq
    · exact absurd hsame (h j i hgt).2
  rw [all_eq_map_places, List.pairwise_map]
  refine (all_ascending (List.pairwise_lt_finRange _)).imp fun {σ τ} hlt hsame => ?_
  rw [List.forall₂_map_left_iff, List.forall₂_map_right_iff] at hsame
  have heq : σ = τ := by
    rw [← List.forall₂_eq_eq_eq]
    exact hsame.imp hplace
  rw [heq] at hlt
  exact irrefl τ hlt

end Orderings

/-- The orderings are given unless the computed number of them is more than the limit allows. -/
theorem Builtin.permutations_apply (config : Config) (p : Position) (items : List Value) :
    permutations.apply config p [.list items] =
      if config.maxItems < Orderings.count items.length then
        .error ⟨.tooMany "permutations" (Orderings.count items.length) config.maxItems, p⟩
      else .ok (.list ((Orderings.all items).map .list)) := by
  change (checkCount _ _ config p >>= fun _ => _) = _
  unfold checkCount
  split <;> rfl

/-- If the limit allows `n!` items, then the orderings of a list of length `n` are given as lists
that take its elements from the permutations of its `n` places in lexicographic order. So there are
`n!` of them, from the list itself to its reverse, all rearrangements of the list, and no two of
them are the same if no two of its elements are, whatever is taken for the same. If the limit, which
is a shorter word, does not allow `n!` items, then their number is reported, or the greatest one of
128 bits if it is greater than that. -/
theorem permutations_lists (config : Config) (p : Position) (items : List Value) :
    (items.length.factorial ≤ config.maxItems →
      ∃ (places : List (List (Fin items.length))) (orderings : List (List Value)),
        places.Pairwise (List.Lex (· < ·)) ∧
        (∀ σ, σ ∈ places ↔ σ.Perm (List.finRange items.length)) ∧
        orderings = places.map (List.map items.get) ∧
        Builtin.permutations.apply config p [.list items] = .ok (.list (orderings.map .list)) ∧
        orderings.length = items.length.factorial ∧
        (∀ ordering ∈ orderings, ordering.Perm items) ∧
        orderings.head? = some items ∧ orderings.getLast? = some items.reverse ∧
        ∀ same : Value → Value → Prop, (items.Pairwise fun v w => ¬ same v w ∧ ¬ same w v) →
          orderings.Pairwise fun a b => ¬ List.Forall₂ same a b) ∧
    (config.maxItems < items.length.factorial → config.maxItems < 2 ^ 128 - 1 →
      Builtin.permutations.apply config p [.list items] =
        .error ⟨.tooMany "permutations"
          (if items.length.factorial < 2 ^ 128 then items.length.factorial else 2 ^ 128 - 1)
          config.maxItems, p⟩) := by
  have hlimit : Orderings.countLimit = 2 ^ 128 - 1 := rfl
  rw [Builtin.permutations_apply, Orderings.count_eq, hlimit]
  constructor
  · intro hallowed
    refine ⟨Orderings.all (List.finRange items.length), Orderings.all items,
      Orderings.all_ascending (List.pairwise_lt_finRange _), fun σ => Orderings.mem_all,
      Orderings.all_eq_map_places items, if_neg (by omega), Orderings.length_all items,
      fun ordering => Orderings.mem_all.mp, Orderings.head?_all items,
      Orderings.getLast?_all items, fun same => Orderings.all_distinct⟩
  · intro hexceeded hword
    have hcount : min items.length.factorial (2 ^ 128 - 1) =
        if items.length.factorial < 2 ^ 128 then items.length.factorial else 2 ^ 128 - 1 := by
      split <;> omega
    rw [if_pos (by omega), hcount]

/-- Where six items are allowed, three different elements have six different orderings, in the order
of their places; where five are allowed they are one too many. -/
theorem permutations_lists_three :
    let a : Value := .text "a"
    let items : List Value := [a, .integer 2, .null]
    (∃ orderings : List (List Value),
      Builtin.permutations.apply { maxItems := 6 } .start [.list items] =
        .ok (.list (orderings.map .list)) ∧
      orderings = [[a, .integer 2, .null], [a, .null, .integer 2], [.integer 2, a, .null],
        [.integer 2, .null, a], [.null, a, .integer 2], [.null, .integer 2, a]] ∧
      orderings.length = Nat.factorial 3 ∧
      orderings.Pairwise fun a b => ¬ List.Forall₂ (· = ·) a b) ∧
    Builtin.permutations.apply { maxItems := 5 } .start [.list items] =
      .error ⟨.tooMany "permutations" 6 5, .start⟩ := by
  intro a items
  obtain ⟨_, orderings, -, -, -, happly, hlength, -, -, -, hdistinct⟩ :=
    (permutations_lists { maxItems := 6 } .start items).1 (by decide)
  have hall : Orderings.all items = [[a, .integer 2, .null], [a, .null, .integer 2],
      [.integer 2, a, .null], [.integer 2, .null, a], [.null, a, .integer 2],
      [.null, .integer 2, a]] := by
    simp [Orderings.all_of_ne_nil, Orderings.selections, items]
  have hlists := happly.symm.trans (Builtin.permutations_apply ..)
  rw [hall, if_neg (by decide)] at hlists
  have horderings := Value.list.inj (Except.ok.inj hlists)
  have hitems : items.Pairwise fun v w => ¬ v = w ∧ ¬ w = v := by simp [items, a]
  have hmore := (permutations_lists { maxItems := 5 } .start items).2 (by decide) (by norm_num)
  exact ⟨⟨orderings, happly, (List.map_injective_iff.mpr fun _ _ => Value.list.inj) horderings,
    hlength, hdistinct (· = ·) hitems⟩, hmore⟩

end HandTemplate
