import Mathlib

/-!
# Choices from several lists

The ways to choose one element from each of several lists, in the order in which loops nested inside
one another come to them: the choice from the last list changes at every step. The place of a
choice, written in mixed radix, has the places of its elements as digits (`getElem?_choices`).
-/

namespace HandTemplate

variable {α β : Type}

/-- The ways to choose one element from each list, those from later lists varying faster. -/
def choices : List (List α) → List (List α)
  | [] => [[]]
  | xs :: lists => xs.flatMap fun x => (choices lists).map (x :: ·)

/-- The digits of a number in mixed radix, the most significant one first. -/
def digits : List Nat → Nat → List Nat
  | [], _ => []
  | _ :: radices, j => j / radices.prod :: digits radices (j % radices.prod)

/-- There are as many choices as the product of the lengths of the lists. -/
theorem length_choices (lists : List (List α)) :
    (choices lists).length = (lists.map List.length).prod := by
  induction lists with
  | nil => rfl
  | cons xs lists ih =>
    rw [choices, List.length_flatMap, List.map_cons, List.prod_cons, ← ih]
    simp

/-- Only elements of the lists are chosen. -/
theorem mem_of_mem_choices {lists : List (List α)} {choice : List α} (h : choice ∈ choices lists)
    {x : α} (hx : x ∈ choice) : ∃ xs ∈ lists, x ∈ xs := by
  induction lists generalizing choice with
  | nil =>
    rw [List.mem_singleton.mp h] at hx
    cases hx
  | cons xs lists ih =>
    obtain ⟨y, hy, hmem⟩ := List.mem_flatMap.mp h
    obtain ⟨others, hothers, rfl⟩ := List.mem_map.mp hmem
    rcases List.mem_cons.mp hx with rfl | hx
    · exact ⟨xs, List.mem_cons_self .., hy⟩
    · obtain ⟨ys, hys, hxs⟩ := ih hothers hx
      exact ⟨ys, List.mem_cons_of_mem _ hys, hxs⟩

/-- Where all parts of a list are equally long, an element is found by the part that it is in and
its place there. -/
theorem getElem?_flatMap {f : α → List β} {n : Nat} (hn : 0 < n) {xs : List α}
    (hf : ∀ x, (f x).length = n) (j : Nat) :
    (xs.flatMap f)[j]? = xs[j / n]?.bind fun x => (f x)[j % n]? := by
  induction xs generalizing j with
  | nil => rfl
  | cons x xs ih =>
    rw [List.flatMap_cons]
    rcases Nat.lt_or_ge j n with hj | hj
    · rw [List.getElem?_append_left (by rw [hf]; exact hj), Nat.div_eq_of_lt hj,
        Nat.mod_eq_of_lt hj]
      rfl
    · rw [List.getElem?_append_right (by rw [hf]; exact hj), hf, ih, Nat.div_eq_sub_div hn hj,
        Nat.mod_eq_sub_mod hj]
      rfl

/-- The choice at a place takes the elements at the digits of the place. -/
theorem getElem?_choices (lists : List (List α)) {j : Nat}
    (hj : j < (lists.map List.length).prod) :
    ∃ choice, (choices lists)[j]? = some choice ∧
      choice.map some =
        List.zipWith (fun xs d => xs[d]?) lists (digits (lists.map List.length) j) := by
  -- By induction on the lists: the first digit is a quotient by the number of choices from the
  -- others, and the remainder is a place among these.
  induction lists generalizing j with
  | nil =>
    obtain rfl : j = 0 := by simpa using hj
    exact ⟨[], rfl, rfl⟩
  | cons xs lists ih =>
    rw [List.map_cons, List.prod_cons] at hj
    have hpos : 0 < (lists.map List.length).prod := Nat.pos_of_mul_pos_left (Nat.zero_lt_of_lt hj)
    have hdigit : j / (lists.map List.length).prod < xs.length :=
      Nat.div_lt_of_lt_mul (by rwa [Nat.mul_comm])
    obtain ⟨choice, hchoice, hdigits⟩ := ih (Nat.mod_lt j hpos)
    have hlength : ∀ x : α,
        ((choices lists).map (x :: ·)).length = (lists.map List.length).prod := by
      intro x
      rw [List.length_map, length_choices]
    refine ⟨xs[j / (lists.map List.length).prod] :: choice, ?_, ?_⟩
    · rw [choices, getElem?_flatMap hpos hlength, List.getElem?_eq_getElem hdigit]
      simp [hchoice]
    · rw [List.map_cons, List.map_cons, digits, List.zipWith_cons_cons, hdigits,
        List.getElem?_eq_getElem hdigit]

end HandTemplate
