import HandTemplate.Proofs.Faults.Statement
import HandTemplate.Proofs.Layout.Limit

/-!
# Faults of programs

Nothing in a metadata block depends on the limit, and the variations block agrees under two limits.
So a larger limit changes a program that is read not at all, and of its faults none but that of too
deep a nesting (`parse_larger_limit`); every fault names a lexeme (`parse_names`), and every part of
a program is placed at one (`parse_placed`).
-/

namespace HandTemplate

namespace Rule

variable {α β : Type} {m n : Nat} {W : List Lexeme} {V : α → Prop}

/-- Whatever is read has a property and leaves lexemes of `W`, and a fault names one of them. -/
def Faithful (W : List Lexeme) (V : α → Prop) (r : Except GrammarFault (Parsed α n)) : Prop :=
  Agree W V (pair r) (pair r)

/-- What is read is faithful if its value has the property and nothing but lexemes is left. -/
theorem Faithful.ok {p : Parsed α n} (hvalue : V p.value) (hrest : p.rest ⊆ W) :
    Faithful W V (.ok p) :=
  Agree.ok hvalue hrest

/-- A fault is faithful if it names a lexeme. -/
theorem Faithful.error {e : GrammarFault} (hnames : e.Names W) :
    Faithful W V (.error e : Except GrammarFault (Parsed α n)) := Agree.error hnames

/-- Two rules in a row are faithful if each of them is. -/
theorem Faithful.bind {r : Except GrammarFault (Parsed α m)} (h : Faithful W V r) {V' : β → Prop}
    {f : Parsed α m → Except GrammarFault (Parsed β n)}
    (hf : ∀ p : Parsed α m, V p.value → p.rest ⊆ W → Faithful W V' (f p)) :
    Faithful W V' (r >>= f) := by
  cases r with
  | error e =>
    cases h with
    | error hnames => exact .error hnames
    | tooDeep hp => exact .error hp
  | ok p =>
    cases h with
    | ok hvalue hrest => exact hf p hvalue hrest

end Rule

open Grammar Rule

variable {W : List Lexeme}

namespace Datum

/-- The integers of a value of the metadata are written by lexemes. -/
inductive Placed (W : List Lexeme) : Datum → Prop where
  | text {value : String} : Placed W (.text value)
  | integer {value : Int64} {p : Position} (hp : ⟨.integer value, p⟩ ∈ W) :
      Placed W (.integer value)
  | real {value : Binary64} : Placed W (.real value)
  | bool {value : Bool} : Placed W (.bool value)
  | null : Placed W .null
  | list {items : List Datum} (hitems : ∀ d ∈ items, Placed W d) : Placed W (.list items)

/-- The value that one lexeme is. -/
theorem ofToken?_placed {t : Lexeme} (ht : t ∈ W) {value : Datum}
    (h : ofToken? t.token = some value) : value.Placed W := by
  obtain ⟨token, p⟩ := t
  cases token with
  | integer n =>
    cases h
    exact .integer ht
  | text | tile | identifier =>
    cases h
    exact .text
  | real =>
    cases h
    exact .real
  | bool =>
    cases h
    exact .bool
  | null =>
    cases h
    exact .null
  | _ => cases h

/-- A single value stands where its lexeme does. -/
theorem single_faithful {ts : List Lexeme} (hts : ts ⊆ W) : Faithful W (Placed W) (single ts) := by
  unfold single
  split
  · exact .error trivial
  next t after =>
    obtain ⟨ht, hafter⟩ := mem_and_subset_of_cons hts
    split
    next value hvalue => exact .ok (ofToken?_placed ht hvalue) hafter
    · exact .error ht

/-- The items of a list stand where their lexemes do. -/
theorem items_faithful {d : Delimiter} {opened : Position} (hopened : ⟨.mark d.opening, opened⟩ ∈ W)
    {ts : List Lexeme} (hts : ts ⊆ W) :
    Faithful W (fun values => ∀ value ∈ values, value.Placed W) (items d opened ts) := by
  fun_induction items d opened ts with
  | case1 => exact .error hopened
  | case2 ts t after heq _ hclosing =>
    have hdrop : t :: after ⊆ W := heq ▸ dropWhile_subset hts _
    exact .ok (fun value h => (nomatch h)) (mem_and_subset_of_cons hdrop).2
  | case3 ts t after heq _ hclosing ih =>
    have hdrop : t :: after ⊆ W := heq ▸ dropWhile_subset hts _
    exact (single_faithful hdrop).bind fun first hvalue hfirst =>
      (ih first hfirst).bind fun others hvalues hothers =>
        .ok (List.forall_mem_cons.2 ⟨hvalue, hvalues⟩) hothers

/-- A value of the metadata stands where its lexemes do. -/
theorem parse_faithful {ts : List Lexeme} (hts : ts ⊆ W) :
    Faithful W (Placed W) (Datum.parse ts) := by
  unfold Datum.parse
  split
  · obtain ⟨hopened, hafter⟩ := mem_and_subset_of_cons hts
    exact (items_faithful (d := .paren) hopened hafter).bind fun values hitems hvalues =>
      .ok (.list hitems) hvalues
  · obtain ⟨hopened, hafter⟩ := mem_and_subset_of_cons hts
    exact (items_faithful (d := .bracket) hopened hafter).bind fun values hitems hvalues =>
      .ok (.list hitems) hvalues
  · exact single_faithful hts

end Datum

namespace Metadata

/-- The integers of some entries are written by lexemes. -/
def Placed (W : List Lexeme) (entries : List (String × Datum)) : Prop :=
  ∀ entry ∈ entries, entry.2.Placed W

/-- An entry that is stored replaces one or comes after the others. -/
theorem store_placed {name : String} {value : Datum} (hvalue : value.Placed W)
    {entries : List (String × Datum)} (h : Placed W entries) :
    Placed W (Record.store name value entries) := by
  induction entries with
  | nil => exact List.forall_mem_cons.2 ⟨hvalue, h⟩
  | cons entry entries ih =>
    obtain ⟨hentry, hothers⟩ := List.forall_mem_cons.1 h
    unfold Record.store
    split
    · exact List.forall_mem_cons.2 ⟨hvalue, hothers⟩
    · exact List.forall_mem_cons.2 ⟨hentry, ih hothers⟩

/-- What is stored under the keys of a record stands where it stood before. -/
theorem ofList_placed {stored : List (String × Datum)} (h : Placed W stored) :
    Placed W (Record.ofList stored).entries := by
  have hfold : ∀ (stored : List (String × Datum)) (r : Metadata), Placed W stored →
      Placed W r.entries →
        Placed W (stored.foldl (fun r entry => r.insert entry.1 entry.2) r).entries := by
    intro stored
    induction stored with
    | nil => exact fun _ _ hr => hr
    | cons entry stored ih =>
      intro r hstored hr
      obtain ⟨hentry, hothers⟩ := List.forall_mem_cons.1 hstored
      exact ih _ hothers (store_placed hentry hr)
  exact hfold stored .empty h fun _ h => nomatch h

/-- A key is read from one of the lexemes, or its fault names one. -/
theorem key_faithful {ts : List Lexeme} (hts : ts ⊆ W) : Faithful W (fun _ => True) (key ts) := by
  unfold key
  split
  · exact .ok trivial (mem_and_subset_of_cons hts).2
  · exact .ok trivial (mem_and_subset_of_cons hts).2
  · exact .ok trivial (mem_and_subset_of_cons hts).2
  · exact .error (GrammarFault.names_expecting _ hts)

/-- What is left behind an equals sign was there before. -/
theorem dropAssignment_subset {ts : List Lexeme} (hts : ts ⊆ W) : dropAssignment ts ⊆ W := by
  unfold dropAssignment
  split
  · split
    · exact (mem_and_subset_of_cons hts).2
    · exact hts
  · exact hts

/-- The value of an entry stands where its lexemes do. -/
theorem entry_faithful {ts : List Lexeme} (hts : ts ⊆ W) :
    Faithful W (fun entry => entry.2.Placed W) (entry ts) :=
  (key_faithful hts).bind fun _ _ hname =>
    (Datum.parse_faithful (dropAssignment_subset hname)).bind fun _ hvalue hrest =>
      .ok hvalue hrest

/-- The values of all entries stand where their lexemes do. -/
theorem blockEntries_faithful {opened : Position} (hopened : ⟨.mark .leftBrace, opened⟩ ∈ W)
    {ts : List Lexeme} (hts : ts ⊆ W) : Faithful W (Placed W) (blockEntries opened ts) := by
  fun_induction blockEntries opened ts with
  | case1 => exact .error hopened
  | case2 ts t after heq _ hclosing =>
    have hdrop : t :: after ⊆ W := heq ▸ dropWhile_subset hts _
    exact .ok (fun _ h => (nomatch h)) (mem_and_subset_of_cons hdrop).2
  | case3 ts t after heq _ hclosing ih =>
    have hdrop : t :: after ⊆ W := heq ▸ dropWhile_subset hts _
    exact (entry_faithful hdrop).bind fun first hentry hfirst =>
      (ih first hfirst).bind fun others hentries hothers =>
        .ok (List.forall_mem_cons.2 ⟨hentry, hentries⟩) hothers

/-- The values of the metadata stand where their lexemes do. -/
theorem parse_faithful {ts : List Lexeme} (hts : ts ⊆ W) :
    Faithful W (fun metadata => Placed W metadata.entries) (Metadata.parse ts) := by
  unfold Metadata.parse
  split
  next p ts =>
    have hdrop : dropNewlines (dropAssignment ts) ⊆ W :=
      dropNewlines_subset (dropAssignment_subset (mem_and_subset_of_cons hts).2)
    split
    next opened after heq =>
      rw [heq] at hdrop
      obtain ⟨hopened, hafter⟩ := mem_and_subset_of_cons hdrop
      exact (blockEntries_faithful hopened hafter).bind fun stored hentries hstored =>
        .ok (ofList_placed hentries) hstored
    · exact .error (GrammarFault.names_expecting _ hdrop)
  · exact .error (mem_and_subset_of_cons hts).1
  · exact .error trivial

end Metadata

namespace Program

variable {limit limit' : Nat}

/-- Variations blocks agree under two limits, the second of which is no lower. -/
theorem variations_agrees (hlimit : limit ≤ limit') :
    Agrees W (fun statements => ∀ s ∈ statements, s.Placed W) (variations limit)
      (variations limit') := by
  -- The word may be followed by an equals sign, and then the body is read as in a loop.
  have hbody := Statement.body_agrees (W := W) (Statement.parse_agrees limit limit' hlimit)
    expectedBody
  intro ts hts
  rcases ts with _ | ⟨⟨token, p⟩, ts⟩
  · exact .error trivial
  obtain ⟨ht, hafter⟩ := mem_and_subset_of_cons hts
  cases token with
  | keyword word =>
    cases word with
    | variations =>
      rcases mark_or_not .equals ts with ⟨q, ts, rfl⟩ | hhead
      · rw [variations_equals, variations_equals]
        exact hbody ts (mem_and_subset_of_cons hafter).2
      · rw [variations_plain _ hhead, variations_plain _ hhead]
        exact hbody ts hafter
    | _ => exact .error ht
  | _ => exact .error ht

/-- Programs agree under two limits, the second of which is no lower. -/
theorem parse_agrees (hlimit : limit ≤ limit') (ts : List Lexeme) :
    Agree ts (fun program => Metadata.Placed ts program.metadata.entries ∧
        ∀ s ∈ program.body, s.Placed ts)
      (parse limit ts >>= fun program => .ok (program, []))
      (parse limit' ts >>= fun program => .ok (program, [])) := by
  have hdrop : dropSeparators ts ⊆ ts := dropSeparators_subset (List.Subset.refl ts)
  -- The metadata, the variations and the end come one after the other, with separators dropped
  -- before each.
  rw [parse_eq, parse_eq, bind_assoc, bind_assoc]
  refine Agree.bind (Metadata.parse_faithful hdrop) fun metadata rest _ hmetadata hrest => ?_
  rw [bind_assoc, bind_assoc]
  refine (variations_agrees hlimit _ (dropSeparators_subset hrest)).bind
    fun body rest _ hbody hrest => ?_
  have hend := dropSeparators_subset hrest
  dsimp only
  cases heq : dropSeparators rest with
  | nil => exact .ok ⟨hmetadata, hbody⟩ (List.nil_subset _)
  | cons t after =>
    rw [heq] at hend
    exact .error (mem_and_subset_of_cons hend).1

/-- Every part of a program that is read is placed at one of its lexemes. -/
theorem parse_placed {ts : List Lexeme} {program : Program} (h : parse limit ts = .ok program) :
    ∀ s ∈ program.body, s.Placed ts := by
  have hagrees := parse_agrees (Nat.le_refl limit) ts
  rw [h] at hagrees
  cases hagrees with
  | ok hplaced => exact hplaced.2

/-- The integers of the metadata of a program that is read are written by its lexemes. -/
theorem parse_metadata_placed {ts : List Lexeme} {program : Program}
    (h : parse limit ts = .ok program) : Metadata.Placed ts program.metadata.entries := by
  have hagrees := parse_agrees (Nat.le_refl limit) ts
  rw [h] at hagrees
  cases hagrees with
  | ok hplaced => exact hplaced.1

/-- Every fault of the structure of some lexemes names one of them. -/
theorem parse_names {ts : List Lexeme} {e : GrammarFault} (h : parse limit ts = .error e) :
    e.Names ts := by
  have hagrees := parse_agrees (Nat.le_refl limit) ts
  rw [h] at hagrees
  cases hagrees with
  | error hnames => exact hnames
  | tooDeep hp => exact hp

/-- A larger limit gives the same program and the same fault, except that it may let pass what is
too deep under a smaller one. -/
theorem parse_larger_limit (hlimit : limit ≤ limit') (ts : List Lexeme) :
    (∀ program, parse limit ts = .ok program → parse limit' ts = .ok program) ∧
      ∀ e, parse limit ts = .error e → (∀ l p, e ≠ .tooDeep l p) → parse limit' ts = .error e := by
  -- A run that is not too deep has the result of the run under the other limit.
  have hagrees := parse_agrees hlimit ts
  refine ⟨fun program h => ?_, fun e h hdeep => ?_⟩
  · rw [h] at hagrees
    cases h' : parse limit' ts with
    | error e =>
      rw [h'] at hagrees
      cases hagrees
    | ok program' =>
      rw [h'] at hagrees
      cases hagrees
      rfl
  · rw [h] at hagrees
    cases h' : parse limit' ts with
    | error e' =>
      rw [h'] at hagrees
      cases hagrees with
      | error => rfl
      | tooDeep => exact absurd rfl (hdeep _ _)
    | ok program =>
      rw [h'] at hagrees
      cases hagrees with
      | tooDeep => exact absurd rfl (hdeep _ _)

end Program

end HandTemplate
