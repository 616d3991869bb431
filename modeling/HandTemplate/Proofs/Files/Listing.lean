import Mathlib
import HandTemplate.FileTree
import HandTemplate.Proofs.Files.Steps

/-!
# The files of a tree

In a proper tree each entry of a directory has a name of its own. So the files of the tree are
listed by distinct paths, each of which consists of names.
-/

namespace HandTemplate

namespace FileTree

variable {α : Type}

/-- A tree in which every entry of a directory has a name, and no two of them have the same one. -/
inductive Proper : FileTree α → Prop where
  | file {content : α} : Proper (file content)
  | directory {entries : List (String × FileTree α)}
      (hnames : ∀ entry ∈ entries, Path.IsName entry.1) (hnodup : (entries.map Prod.fst).Nodup)
      (hbelow : ∀ entry ∈ entries, Proper entry.2) : Proper (directory entries)

/-- What is found under a name is one of the entries. -/
theorem mem_of_lookup {entries : List (String × α)} {name : String} {value : α}
    (h : Record.lookup name entries = some value) : (name, value) ∈ entries := by
  induction entries with
  | nil => cases h
  | cons entry entries ih =>
    rw [Record.lookup] at h
    split_ifs at h with hname
    · cases h
      rw [← hname]
      exact List.mem_cons_self ..
    · exact List.mem_cons_of_mem entry (ih h)

/-- What a proper tree holds is proper. -/
theorem Proper.of_get? {tree node : FileTree α} {names : List String} (h : tree.Proper)
    (hnode : tree.get? names = some node) : node.Proper := by
  induction names generalizing tree with
  | nil =>
    cases hnode
    exact h
  | cons name names ih =>
    obtain ⟨child, hchild, hrest⟩ := Option.bind_eq_some_iff.mp hnode
    cases h with
    | file => cases hchild
    | directory _ _ hbelow => exact ih (hbelow _ (mem_of_lookup hchild)) hrest

/-- A file of a directory is a file of one of its entries. -/
theorem mem_files_directory {entries : List (String × FileTree α)} {found : List String × α} :
    found ∈ (directory entries).files ↔ ∃ entry ∈ entries, ∃ below ∈ entry.2.files,
      found = (entry.1 :: below.1, below.2) := by
  rw [files]
  simp only [List.mem_flatMap, List.mem_mergeSort, List.mem_map]
  constructor
  · rintro ⟨_, ⟨entry, hentry, rfl⟩, below, hbelow, rfl⟩
    exact ⟨entry, hentry, below, hbelow, rfl⟩
  · rintro ⟨entry, hentry, below, hbelow, rfl⟩
    exact ⟨_, ⟨entry, hentry, rfl⟩, below, hbelow, rfl⟩

/-- The paths of the files consist of names. -/
theorem Proper.isName {tree : FileTree α} (h : tree.Proper) :
    ∀ found ∈ tree.files, ∀ name ∈ found.1, Path.IsName name := by
  induction h with
  | file =>
    intro found hfound name hname
    rw [files, List.mem_singleton] at hfound
    rw [hfound] at hname
    cases hname
  | directory hnames _ _ ih =>
    intro found hfound name hname
    obtain ⟨entry, hentry, below, hbelow, rfl⟩ := mem_files_directory.mp hfound
    rcases List.mem_cons.mp hname with rfl | hname
    · exact hnames entry hentry
    · exact ih entry hentry below hbelow name hname

/-- No two files have the same path. -/
theorem Proper.files_nodup {tree : FileTree α} (h : tree.Proper) :
    (tree.files.map Prod.fst).Nodup := by
  -- By induction on the tree; below one entry, the paths differ after its name.
  induction h with
  | file =>
    rw [files]
    exact List.nodup_singleton _
  | @directory entries _ hnodup _ ih =>
    rw [files, List.map_flatMap, List.nodup_flatMap]
    refine ⟨fun part hpart => ?_, ?_⟩
    · obtain ⟨entry, hentry, rfl⟩ := List.mem_map.mp (List.mem_mergeSort.mp hpart)
      have hbelow := (ih entry hentry).map (List.cons_injective (a := entry.1))
      rwa [List.map_map] at hbelow ⊢
    · -- The first names of two paths are those of two entries.
      have hheads := ((List.mergeSort_perm (entries.map fun entry => (entry.1, entry.2.files))
        fun a b => decide (a.1 ≤ b.1)).map Prod.fst).nodup_iff.mpr (by rwa [List.map_map])
      rw [List.Nodup, List.pairwise_map] at hheads
      have hhead : ∀ {part : String × List (List String × α)} {names : List String},
          names ∈ (part.2.map fun found => (part.1 :: found.1, found.2)).map Prod.fst →
            names.head? = some part.1 := by
        intro part names hnames
        rw [List.map_map] at hnames
        obtain ⟨below, -, rfl⟩ := List.mem_map.mp hnames
        rfl
      refine hheads.imp fun hne names hnames hnames' => hne ?_
      exact Option.some.inj ((hhead hnames).symm.trans (hhead hnames'))

end FileTree

end HandTemplate
