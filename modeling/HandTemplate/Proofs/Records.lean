import Mathlib.Data.Finset.Card
import Mathlib.Data.List.Induction
import HandTemplate.Record

/-!
# What is in a record

The names of a record and the value of each of them, after an entry or a list of entries is stored.
A name keeps its first place and its last value (`names_ofList`, `get?_ofList`). Nothing else is in
a record: it is its names in order with their values (`eq_of_names_of_get?`), so entries that agree
on the order of their first names and on their last values make the same record (`ofList_ordered`).
-/

namespace HandTemplate

namespace Record

variable {α : Type} {name : String}

/-- A name that no entry has is not found. -/
theorem lookup_eq_none {entries : List (String × α)} (h : name ∉ entries.map Prod.fst) :
    lookup name entries = none := by
  induction entries with
  | nil => rfl
  | cons entry entries ih =>
    rw [List.map_cons, List.mem_cons, not_or] at h
    rw [lookup, if_neg fun heq => h.1 heq.symm, ih h.2]

/-- Storing a value adds its name at the end unless it is there already. -/
theorem names_insert (r : Record α) (name : String) (value : α) :
    (r.insert name value).names = if name ∈ r.names then r.names else r.names ++ [name] := by
  have hstore : ∀ entries : List (String × α), (store name value entries).map Prod.fst =
      if name ∈ entries.map Prod.fst then entries.map Prod.fst
      else entries.map Prod.fst ++ [name] := by
    intro entries
    induction entries with
    | nil => rfl
    | cons entry entries ih =>
      rw [store]
      split
      next heq => simp [heq]
      next hne =>
        have hne' : name ≠ entry.1 := fun heq => hne heq.symm
        rw [List.map_cons, ih]
        by_cases hmem : name ∈ entries.map Prod.fst <;> simp_all
  exact hstore r.entries

/-- Storing a value again replaces it, so that every name is there once. -/
theorem nodup_names_insert {r : Record α} (h : r.names.Nodup) (name : String) (value : α) :
    (r.insert name value).names.Nodup := by
  rw [names_insert]
  split
  · exact h
  next hname =>
    rw [List.nodup_append]
    refine ⟨h, by simp, fun a ha b hb => ?_⟩
    rw [List.mem_singleton.mp hb]
    exact fun heq => hname (heq ▸ ha)

/-- One more entry is inserted into the record of the entries before it. -/
theorem ofList_concat (entries : List (String × α)) (entry : String × α) :
    ofList (entries ++ [entry]) = (ofList entries).insert entry.1 entry.2 := by
  unfold ofList
  rw [List.foldl_append]
  rfl

/-- In a record into which entries were stored, every name is there once. -/
theorem nodup_names_ofList (entries : List (String × α)) : (ofList entries).names.Nodup := by
  unfold ofList
  have hempty : (empty : Record α).names.Nodup := List.nodup_nil
  generalize (empty : Record α) = r at hempty ⊢
  induction entries generalizing r with
  | nil => exact hempty
  | cons entry entries ih => exact ih _ (nodup_names_insert hempty entry.1 entry.2)

/-- The names are in the order of their first entries. -/
theorem names_ofList (entries : List (String × α)) :
    (ofList entries).names = (entries.map Prod.fst).eraseDups := by
  induction entries using List.reverseRecOn with
  | nil => rfl
  | append_singleton entries entry ih =>
    rw [ofList_concat, names_insert, ih, List.map_append, List.eraseDups_append]
    by_cases hmem : entry.1 ∈ entries.map Prod.fst <;>
      simp [List.removeAll, List.eraseDups_cons, hmem]

/-- The value of a name is that of its last entry. -/
theorem get?_ofList (entries : List (String × α)) (name : String) :
    (ofList entries).get? name = lookup name entries.reverse := by
  induction entries using List.reverseRecOn with
  | nil => rfl
  | append_singleton entries entry ih =>
    rw [ofList_concat, get?_insert, ih, List.reverse_append]
    rfl

/-! ## What a record is made of -/

/-- The value that some entries give to a name: that of the last entry with the name, if any has it.
-/
def lastValue? (entries : List (String × α)) (name : String) : Option α :=
  ((entries.filter (·.1 = name)).getLast?).map Prod.snd

/-- The value of a name is that of the first entry with it. -/
theorem lookup_eq_find? (name : String) (entries : List (String × α)) :
    lookup name entries = (entries.find? (·.1 = name)).map Prod.snd := by
  induction entries with
  | nil => rfl
  | cons entry entries ih =>
    rw [lookup, List.find?_cons, ih]
    by_cases hname : entry.1 = name <;> simp [hname]

/-- A record of entries has for each name its last value. -/
theorem get?_ofList_eq_lastValue? (entries : List (String × α)) (name : String) :
    (ofList entries).get? name = lastValue? entries name := by
  rw [get?_ofList, lookup_eq_find?, lastValue?, List.getLast?_filter]

/-- The names of a record are those that have a value. -/
theorem get?_eq_none_iff {r : Record α} : r.get? name = none ↔ name ∉ r.names := by
  constructor
  · intro h
    rw [get?, lookup_eq_find?, Option.map_eq_none_iff, List.find?_eq_none] at h
    intro hname
    obtain ⟨entry, hentry, rfl⟩ := List.mem_map.mp hname
    exact h entry hentry (decide_eq_true rfl)
  · exact lookup_eq_none

/-- The names of a record are those of the entries that it is made of. -/
theorem mem_names_ofList (entries : List (String × α)) :
    name ∈ (ofList entries).names ↔ name ∈ entries.map Prod.fst := by
  rw [names_ofList, List.mem_eraseDups]

/-- The names are in the order in which entries with them come first. -/
theorem names_ofList_pairwise (entries : List (String × α)) :
    (ofList entries).names.Pairwise fun a b =>
      (entries.map Prod.fst).idxOf a < (entries.map Prod.fst).idxOf b := by
  -- By induction from the last entry, which comes behind the names that are there, or is one of
  -- them.
  induction entries using List.reverseRecOn with
  | nil => exact .nil
  | append_singleton entries entry ih =>
    rw [ofList_concat, names_insert, List.map_append, List.map_singleton]
    -- One more entry does not move the names that are there.
    have hplace : ∀ a ∈ (ofList entries).names,
        (entries.map Prod.fst ++ [entry.1]).idxOf a = (entries.map Prod.fst).idxOf a :=
      fun a ha => List.idxOf_append_of_mem ((mem_names_ofList entries).mp ha)
    have hold : (ofList entries).names.Pairwise fun a b =>
        (entries.map Prod.fst ++ [entry.1]).idxOf a <
          (entries.map Prod.fst ++ [entry.1]).idxOf b :=
      ih.imp_of_mem fun ha hb h => by rwa [hplace _ ha, hplace _ hb]
    split
    · exact hold
    next hnew =>
      rw [mem_names_ofList] at hnew
      refine List.pairwise_append.mpr ⟨hold, List.pairwise_singleton _ _, fun a ha b hb => ?_⟩
      rw [List.mem_singleton.mp hb, hplace a ha, List.idxOf_append_of_notMem hnew]
      have := List.idxOf_lt_length_of_mem ((mem_names_ofList entries).mp ha)
      omega

/-- There are as many entries as names were stored. -/
theorem size_ofList (entries : List (String × α)) :
    (ofList entries).size = (entries.map Prod.fst).toFinset.card := by
  have hnames : (ofList entries).names.toFinset = (entries.map Prod.fst).toFinset := by
    ext name
    rw [List.mem_toFinset, List.mem_toFinset, mem_names_ofList]
  rw [← hnames, List.toFinset_card_of_nodup (nodup_names_ofList entries), names, List.length_map]
  rfl

/-- A record in which every name is there once is its names in order with their values. -/
theorem eq_of_names_of_get? {r s : Record α} (hnodup : r.names.Nodup) (hnames : r.names = s.names)
    (hget : ∀ name, r.get? name = s.get? name) : r = s := by
  obtain ⟨entries⟩ := r
  obtain ⟨others⟩ := s
  simp only [names, get?] at hnodup hnames hget
  congr
  -- By induction on the entries, whose names agree one by one.
  induction entries generalizing others with
  | nil => exact (List.map_eq_nil_iff.mp hnames.symm).symm
  | cons entry entries ih =>
    obtain ⟨other, others, rfl, hkey, hrest⟩ := List.map_eq_cons_iff.mp hnames.symm
    rw [List.map_cons, List.nodup_cons] at hnodup
    have hvalue := hget entry.1
    rw [lookup, lookup, if_pos rfl, if_pos hkey] at hvalue
    have hentry : entry = other := Prod.ext hkey.symm (Option.some.inj hvalue)
    subst hentry
    -- The first name is not among the others, whose values are the same without it.
    rw [ih hnodup.2 others hrest.symm fun name => ?_]
    by_cases hname : entry.1 = name
    · subst hname
      rw [lookup_eq_none hnodup.1, lookup_eq_none (hrest ▸ hnodup.1)]
    · simpa only [lookup, if_neg hname] using hget name

/-- Storing the value that a name has changes nothing. -/
theorem insert_of_get? {r : Record α} {value : α} (h : r.get? name = some value) :
    r.insert name value = r := by
  obtain ⟨entries⟩ := r
  simp only [insert, get?] at h ⊢
  congr
  -- By induction on the entries, up to the one with the name.
  induction entries with
  | nil => cases h
  | cons entry entries ih =>
    rw [lookup] at h
    rw [store]
    split at h
    next hname =>
      cases h
      rw [if_pos hname]
    next hname => rw [if_neg hname, ih h]

/-- A record into which entries were stored one after the other is a map that remembers the order of
its names. Each name is there once, before those that were first stored after it, and there are as
many entries as names; a name has the value of its last entry, and no other name has one. So entries
with the same order of their first names and the same last values make the same record, and storing
the value that a name has already changes nothing. -/
theorem ofList_ordered (entries : List (String × α)) :
    ((ofList entries).names.Nodup ∧
      (ofList entries).names = (entries.map Prod.fst).eraseDups ∧
      (ofList entries).names.Pairwise fun a b =>
        (entries.map Prod.fst).idxOf a < (entries.map Prod.fst).idxOf b) ∧
    (ofList entries).size = (entries.map Prod.fst).toFinset.card ∧
    (∀ name, (ofList entries).get? name = lastValue? entries name ∧
      ((ofList entries).get? name = none ↔ name ∉ entries.map Prod.fst)) ∧
    (∀ others : List (String × α),
      (entries.map Prod.fst).eraseDups = (others.map Prod.fst).eraseDups →
      (∀ name, lastValue? entries name = lastValue? others name) →
        ofList entries = ofList others) ∧
    ∀ name value, (ofList entries).get? name = some value →
      (ofList entries).insert name value = ofList entries := by
  refine ⟨⟨nodup_names_ofList entries, names_ofList entries, names_ofList_pairwise entries⟩,
    size_ofList entries, fun name => ⟨get?_ofList_eq_lastValue? entries name, ?_⟩,
    fun others hnames hvalues => ?_, fun name value => insert_of_get?⟩
  · rw [get?_eq_none_iff, mem_names_ofList]
  · refine eq_of_names_of_get? (nodup_names_ofList entries) ?_ fun name => ?_
    · rw [names_ofList, names_ofList, hnames]
    · rw [get?_ofList_eq_lastValue?, get?_ofList_eq_lastValue?, hvalues]

/-- A value that is stored late and one that is stored early and replaced leave the same record. -/
theorem ofList_ordered_replaced :
    ofList [("suit", 1), ("name", 2), ("suit", 3)] =
        ofList [("suit", 3), ("name", 4), ("name", 2)] ∧
      (ofList [("suit", 1), ("name", 2), ("suit", 3)]).insert "suit" 3 =
        ofList [("suit", 1), ("name", 2), ("suit", 3)] := by
  obtain ⟨-, -, -, hsame, hagain⟩ := ofList_ordered [("suit", 1), ("name", 2), ("suit", 3)]
  refine ⟨hsame _ (by decide) fun name => ?_, hagain "suit" 3 (by decide)⟩
  by_cases hsuit : "suit" = name <;> by_cases hname : "name" = name <;>
    simp [lastValue?, hsuit, hname]
  exact absurd (hsuit.trans hname.symm) (by decide)

end Record

end HandTemplate
