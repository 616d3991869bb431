import HandTemplate.Proofs.Finality.Program
import HandTemplate.Proofs.Records

/-!
# How metadata is spelled

The grammar of the metadata block as a relation between lexemes and the entries that they spell:

    block   ::= "metadata" sign? newline* "{" (skipped entry)* skipped "}"
    entry   ::= key sign? value
    key     ::= name | text | tile
    sign    ::= "=" | ":"
    value   ::= scalar | "(" (blank scalar)* blank ")" | "[" (blank scalar)* blank "]"
    scalar  ::= text | tile | name | integer | real | boolean | null
    skipped ::= (newline | "," | ";")*
    blank   ::= (newline | ",")*

Nothing separates a value from the next key where none of the marks does. The rule for the block
reads exactly that, and stores the entries in order. Main statement: `Metadata.parse_exact`.
-/

namespace HandTemplate

namespace Grammar

variable {α : Type}

/-- Items up to the mark that closes them, with any number of separators before each item and before
that mark. -/
inductive Loose (separators : List Token) (closing : Mark) (item : List Lexeme → α → Prop) :
    List Lexeme → List α → Prop
  | done {ns : List Lexeme} {c : Position} (hns : ∀ t ∈ ns, t.token ∈ separators) :
    Loose separators closing item (ns ++ [⟨.mark closing, c⟩]) []
  | more {ns p ps : List Lexeme} {a : α} {as : List α} (hns : ∀ t ∈ ns, t.token ∈ separators)
    (hitem : item p a) (hitems : Loose separators closing item ps as) :
    Loose separators closing item (ns ++ (p ++ ps)) (a :: as)

/-- A rule reads what is spelled in some way, and nothing else. -/
def Parses (rule : Rule α) (spelled : List Lexeme → α → Prop) : Prop :=
  ∀ ts a rest, rule.run ts = .ok (a, rest) ↔ ∃ p, ts = p ++ rest ∧ spelled p a

end Grammar

open Grammar

namespace Datum

/-- A value of one token. -/
inductive Scalar : List Lexeme → Datum → Prop
  | text {s : String} {p : Position} : Scalar [⟨.text s, p⟩] (.text s)
  | tile {s : String} {p : Position} : Scalar [⟨.tile s, p⟩] (.text s)
  | identifier {s : String} {p : Position} : Scalar [⟨.identifier s, p⟩] (.text s)
  | integer {n : Int64} {p : Position} : Scalar [⟨.integer n, p⟩] (.integer n)
  | real {x : Binary64} {p : Position} : Scalar [⟨.real x, p⟩] (.real x)
  | bool {b : Bool} {p : Position} : Scalar [⟨.bool b, p⟩] (.bool b)
  | null {p : Position} : Scalar [⟨.null, p⟩] .null

/-- A value: one token, or a list of such values between parentheses or brackets. -/
inductive Spelled : List Lexeme → Datum → Prop
  | scalar {ts : List Lexeme} {d : Datum} (hscalar : Scalar ts d) : Spelled ts d
  | list {d : Delimiter} {opened : Position} {ts : List Lexeme} {ds : List Datum}
    (hd : d = .paren ∨ d = .bracket)
    (hitems : Loose [.newline, .mark .comma] d.closing Scalar ts ds) :
    Spelled (⟨.mark d.opening, opened⟩ :: ts) (.list ds)

end Datum

namespace Metadata

/-- A key. -/
inductive Key : List Lexeme → String → Prop
  | identifier {name : String} {p : Position} : Key [⟨.identifier name, p⟩] name
  | text {name : String} {p : Position} : Key [⟨.text name, p⟩] name
  | tile {name : String} {p : Position} : Key [⟨.tile name, p⟩] name

/-- The sign between a key and its value, or between the keyword and the block, if there is one. -/
inductive Sign : List Lexeme → Prop
  | none : Sign []
  | equals {p : Position} : Sign [⟨.mark .equals, p⟩]
  | colon {p : Position} : Sign [⟨.mark .colon, p⟩]

/-- A key and its value. -/
inductive Entry : List Lexeme → String × Datum → Prop
  | intro {ks sign vs : List Lexeme} {name : String} {value : Datum} (hkey : Key ks name)
    (hsign : Sign sign) (hvalue : Datum.Spelled vs value) :
    Entry (ks ++ (sign ++ vs)) (name, value)

/-- The metadata block. -/
inductive Block : List Lexeme → List (String × Datum) → Prop
  | intro {p opened : Position} {sign ns ts : List Lexeme} {entries : List (String × Datum)}
    (hsign : Sign sign) (hns : Newlines ns)
    (hentries : Loose [.newline, .mark .comma, .mark .semicolon] .rightBrace Entry ts entries) :
    Block (⟨.keyword .metadata, p⟩ :: (sign ++ (ns ++ ⟨.mark .leftBrace, opened⟩ :: ts))) entries

end Metadata

/-! ## Repetitions -/

namespace Grammar

open Outcome (bind_eq_ok)
open Rule (length_lt_of_run)

variable {α : Type}

section
variable {separators : List Token} {closing : Mark} {item : Rule α} {drops : Lexeme → Bool}
variable {spelled : List Lexeme → α → Prop} {read : Rule (List α)} {e : GrammarFault}
variable (hdrops : ∀ t, drops t = true ↔ t.token ∈ separators)
variable (hread : ∀ ts, read.run ts =
  match ts.dropWhile drops with
  | [] => .error e
  | t :: after =>
    if t.token = .mark closing then .ok ([], after)
    else item.run (t :: after) >>= fun first =>
      read.run first.2 >>= fun others => .ok (first.1 :: others.1, others.2))
include hdrops hread

/-- What drops separators, ends at the closing mark and otherwise reads an item and goes on has read
loose items. -/
theorem loose_sound (hitem : Parses item spelled) {ts : List Lexeme} {as : List α}
    {rest : List Lexeme} (h : read.run ts = .ok (as, rest)) :
    ∃ p, ts = p ++ rest ∧ Loose separators closing spelled p as := by
  -- By induction on the number of lexemes, of which an item leaves fewer.
  induction hlength : ts.length using Nat.strongRecOn generalizing ts as with
  | ind n ih =>
  subst hlength
  obtain ⟨ns, hns, hts⟩ :
      ∃ ns, (∀ t ∈ ns, t.token ∈ separators) ∧ ts = ns ++ ts.dropWhile drops :=
    ⟨ts.takeWhile drops, fun t ht => (hdrops t).mp (List.all_eq_true.mp List.all_takeWhile t ht),
      List.takeWhile_append_dropWhile.symm⟩
  rw [hread] at h
  split at h
  · cases h
  next t after heq =>
  rw [heq] at hts
  split at h
  next hend =>
    cases h
    rw [lexeme_eq hend] at hts
    exact ⟨_, by simpa using hts, .done hns⟩
  -- There is a first item `p`, and what it leaves are loose items again.
  obtain ⟨⟨a, left⟩, hfirst, h⟩ := bind_eq_ok.mp h
  obtain ⟨⟨others, left'⟩, hothers, h⟩ := bind_eq_ok.mp h
  dsimp only at hothers h
  cases h
  have hshorter := length_lt_of_run hfirst
  obtain ⟨p, hp, hspelled⟩ := (hitem _ _ _).mp hfirst
  have hlength := congrArg List.length hts
  rw [List.length_append] at hlength
  obtain ⟨ps, hps, hloose⟩ := ih left.length (by omega) hothers rfl
  refine ⟨ns ++ (p ++ ps), ?_, .more hns hspelled hloose⟩
  rw [hts, hp, hps, List.append_assoc, List.append_assoc]

/-- Loose items are read so if no item begins with a separator or the closing mark. -/
theorem loose_complete (hclosing : .mark closing ∉ separators) (hitem : Parses item spelled)
    (hopens : ∀ p a, spelled p a →
      ∃ t q, p = t :: q ∧ t.token ∉ separators ∧ t.token ≠ .mark closing)
    {p : List Lexeme} {as : List α} (h : Loose separators closing spelled p as)
    (rest : List Lexeme) : read.run (p ++ rest) = .ok (as, rest) := by
  -- Separators are dropped in front of what is none, be it an item or the closing mark.
  have hdropped : ∀ {ns : List Lexeme} {t : Lexeme}, (∀ n ∈ ns, n.token ∈ separators) →
      t.token ∉ separators → ∀ ts, (ns ++ t :: ts).dropWhile drops = t :: ts := by
    intro ns t hns ht ts
    rw [List.dropWhile_append_of_pos fun n hn => (hdrops n).mpr (hns n hn)]
    exact List.dropWhile_cons_of_neg ((hdrops t).not.mpr ht)
  -- By induction on the items, of which one turn of the rule reads the first.
  induction h with
  | done hns =>
    rw [hread, List.append_assoc, List.singleton_append, hdropped hns hclosing]
    exact if_pos rfl
  | @more ns p ps a as hns hp _ ih =>
    have hfirst := (hitem (p ++ (ps ++ rest)) a (ps ++ rest)).mpr ⟨p, rfl, hp⟩
    obtain ⟨t, q, rfl, ht, hend⟩ := hopens p a hp
    rw [hread, List.append_assoc, List.append_assoc, List.cons_append, hdropped hns ht]
    dsimp only
    rw [if_neg hend, ← List.cons_append, hfirst]
    change read.run (ps ++ rest) >>= _ = _
    rw [ih]
    rfl

/-- A rule of this form reads loose items and nothing else. -/
theorem loose_parses (hclosing : .mark closing ∉ separators) (hitem : Parses item spelled)
    (hopens : ∀ p a, spelled p a →
      ∃ t q, p = t :: q ∧ t.token ∉ separators ∧ t.token ≠ .mark closing) :
    Parses read (Loose separators closing spelled) := by
  refine fun ts as rest => ⟨loose_sound hdrops hread hitem, ?_⟩
  rintro ⟨p, rfl, h⟩
  exact loose_complete hdrops hread hclosing hitem hopens h rest

end

end Grammar

open Outcome (bind_eq_ok)
open Rule

/-! ## Values -/

namespace Datum

/-- A value of one token is what its token stands for. -/
theorem scalar_iff {ts : List Lexeme} {d : Datum} :
    Scalar ts d ↔ ∃ t, ts = [t] ∧ ofToken? t.token = some d := by
  constructor
  · rintro ⟨⟩ <;> exact ⟨_, rfl, rfl⟩
  · rintro ⟨⟨token, p⟩, rfl, h⟩
    cases token <;> cases h <;> constructor

/-- No value of one token is written as a mark or a line end. -/
theorem Scalar.opens {ts : List Lexeme} {d : Datum} (h : Scalar ts d) :
    ∃ t, ts = [t] ∧ (∀ m, t.token ≠ .mark m) ∧ t.token ≠ .newline := by
  cases h <;> exact ⟨_, rfl, nofun, nofun⟩

/-- The rule for a single value reads exactly those of one token. -/
theorem single_parses : Parses single Scalar := by
  intro ts d rest
  simp only [scalar_iff]
  constructor
  -- What is read is one token that stands for a value.
  · intro h
    rcases ts with _ | ⟨t, ts⟩
    · cases h
    rw [run_eq_pair, single] at h
    split at h
    next value heq =>
      cases h
      exact ⟨[t], rfl, t, rfl, heq⟩
    next => cases h
  -- And each such token is read.
  · rintro ⟨_, rfl, t, rfl, h⟩
    rw [run_eq_pair, List.singleton_append, single]
    split
    next value heq =>
      rw [h] at heq
      cases heq
      rfl
    next heq =>
      rw [h] at heq
      cases heq

/-- The rule for items reads exactly single values with line ends and commas between them. -/
theorem items_parses (d : Delimiter) (opened : Position) :
    Parses (items d opened) (Loose [.newline, .mark .comma] d.closing Scalar) := by
  have hdrops : ∀ t : Lexeme,
      isListSeparator t.token = true ↔ t.token ∈ [.newline, .mark .comma] := by
    simp [isListSeparator]
  refine loose_parses hdrops (items_run d opened) ?_ single_parses fun p a h => ?_
  · cases d <;> decide
  · obtain ⟨t, rfl, hmark, hnewline⟩ := h.opens
    exact ⟨t, [], rfl, by simp [hmark, hnewline], hmark _⟩

/-- The rule for values reads exactly what is spelled as one. -/
theorem parse_parses : Parses Datum.parse Spelled := by
  intro ts a rest
  constructor
  · intro h
    rcases ts with _ | ⟨t, ts⟩
    · cases h
    -- The first token decides between a list and a single value.
    by_cases hlist : ∃ d : Delimiter, (d = .paren ∨ d = .bracket) ∧ t.token = .mark d.opening
    · obtain ⟨d, hd, ht⟩ := hlist
      rw [lexeme_eq ht, parse_list hd] at h
      obtain ⟨⟨as, left⟩, hitems, h⟩ := bind_eq_ok.mp h
      cases h
      obtain ⟨p, rfl, hp⟩ := (items_parses d _ _ _ _).mp hitems
      exact ⟨t :: p, rfl, by rw [lexeme_eq ht]; exact .list hd hp⟩
    · rw [parse_single (fun ht => hlist ⟨.paren, .inl rfl, ht⟩)
        fun ht => hlist ⟨.bracket, .inr rfl, ht⟩] at h
      obtain ⟨p, hp, hscalar⟩ := (single_parses _ _ _).mp h
      exact ⟨p, hp, .scalar hscalar⟩
  · rintro ⟨p, rfl, h⟩
    cases h with
    | scalar hscalar =>
      obtain ⟨t, rfl, hmark, -⟩ := hscalar.opens
      rw [List.singleton_append, parse_single (hmark _) (hmark _)]
      exact (single_parses _ _ _).mpr ⟨[t], rfl, hscalar⟩
    | @list d opened ts ds hd hitems =>
      rw [List.cons_append, parse_list hd, (items_parses d opened _ _ _).mpr ⟨ts, rfl, hitems⟩]
      rfl

/-- No value begins with the sign of an assignment. -/
theorem Spelled.opens {ts : List Lexeme} {d : Datum} (h : Spelled ts d) :
    ∃ t q, ts = t :: q ∧ Metadata.isAssignment t.token = false := by
  cases h with
  | scalar hscalar =>
    obtain ⟨t, rfl, hmark, -⟩ := hscalar.opens
    exact ⟨t, [], rfl, by simp [Metadata.isAssignment, hmark]⟩
  | list hd => rcases hd with rfl | rfl <;> exact ⟨_, _, rfl, rfl⟩

end Datum

/-! ## Entries -/

namespace Metadata

/-- No key is written as a mark or a line end. -/
theorem Key.opens {ts : List Lexeme} {name : String} (h : Key ts name) :
    ∃ t, ts = [t] ∧ (∀ m, t.token ≠ .mark m) ∧ t.token ≠ .newline := by
  cases h <;> exact ⟨_, rfl, nofun, nofun⟩

/-- The rule for keys reads exactly one name or one quoted text. -/
theorem key_parses : Parses key Key := by
  intro ts name rest
  constructor
  · intro h
    rcases ts with _ | ⟨⟨token, p⟩, ts⟩
    · cases h
    cases token with
    | identifier | text | tile =>
      cases h
      exact ⟨[_], rfl, by constructor⟩
    | _ => cases h
  · rintro ⟨_, rfl, h⟩
    cases h <;> rfl

/-- Some lexemes begin with a sign, which may be none, in front of those that stay when it is
dropped. -/
theorem exists_sign (ts : List Lexeme) : ∃ sign, Sign sign ∧ ts = sign ++ dropAssignment ts := by
  rcases ts with _ | ⟨t, ts⟩
  · exact ⟨[], .none, rfl⟩
  by_cases h : isAssignment t.token = true
  · have hdrop : dropAssignment (t :: ts) = ts := if_pos h
    rw [hdrop]
    refine ⟨[t], ?_, rfl⟩
    unfold isAssignment at h
    rcases Bool.or_eq_true_iff.mp h with ht | ht
    · rw [lexeme_eq (of_decide_eq_true ht)]
      exact .equals
    · rw [lexeme_eq (of_decide_eq_true ht)]
      exact .colon
  · have hdrop : dropAssignment (t :: ts) = t :: ts := if_neg h
    rw [hdrop]
    exact ⟨[], .none, rfl⟩

/-- A sign in front of another lexeme is dropped. -/
theorem dropAssignment_sign {sign : List Lexeme} (hsign : Sign sign) {t : Lexeme}
    (ht : isAssignment t.token = false) (ts : List Lexeme) :
    dropAssignment (sign ++ t :: ts) = t :: ts := by
  cases hsign with
  | none => exact if_neg (by simp [ht])
  | equals | colon => rfl

/-- The rule for entries reads exactly a key and a value, with or without an equals sign. -/
theorem entry_parses : Parses entry Entry := by
  intro ts e rest
  rw [entry_run]
  constructor
  · intro h
    obtain ⟨⟨name, left⟩, hkey, h⟩ := bind_eq_ok.mp h
    obtain ⟨⟨value, left'⟩, hvalue, h⟩ := bind_eq_ok.mp h
    cases h
    obtain ⟨ks, rfl, hks⟩ := (key_parses _ _ _).mp hkey
    obtain ⟨vs, hvs, hspelled⟩ := (Datum.parse_parses _ _ _).mp hvalue
    -- The sign is what stands between the key and the rest that begins the value.
    obtain ⟨sign, hsign, hleft⟩ := exists_sign left
    dsimp only at hvs
    refine ⟨ks ++ (sign ++ vs), ?_, .intro hks hsign hspelled⟩
    rw [hleft, hvs, List.append_assoc, List.append_assoc]
  · rintro ⟨_, rfl, @⟨ks, sign, vs, name, value, hkey, hsign, hvalue⟩⟩
    have hread := (Datum.parse_parses (vs ++ rest) value rest).mpr ⟨vs, rfl, hvalue⟩
    -- No value begins with a sign, so that only the sign itself is dropped.
    obtain ⟨t, q, rfl, ht⟩ := hvalue.opens
    rw [List.append_assoc, List.append_assoc, (key_parses _ _ _).mpr ⟨ks, rfl, hkey⟩]
    change run Datum.parse (dropAssignment (sign ++ t :: (q ++ rest))) >>= _ = _
    rw [dropAssignment_sign hsign ht, ← List.cons_append, hread]
    rfl

/-- The rule for the entries of a block reads exactly these, up to the closing brace. -/
theorem blockEntries_parses (opened : Position) : Parses (blockEntries opened)
    (Loose [.newline, .mark .comma, .mark .semicolon] .rightBrace Entry) := by
  have hdrops : ∀ t : Lexeme,
      isEntrySeparator t.token = true ↔ t.token ∈ [.newline, .mark .comma, .mark .semicolon] := by
    simp [isEntrySeparator, or_assoc]
  refine loose_parses hdrops (blockEntries_run opened) (by decide) entry_parses fun p a h => ?_
  obtain ⟨hkey, -, -⟩ := h
  obtain ⟨t, rfl, hmark, hnewline⟩ := hkey.opens
  exact ⟨t, _, rfl, by simp [hmark, hnewline], hmark _⟩

/-! ## The block -/

/-- A metadata block begins with its keyword. -/
theorem parse_eq_ok {ts rest : List Lexeme} {record : Metadata}
    (h : run Metadata.parse ts = .ok (record, rest)) :
    ∃ p us, ts = ⟨.keyword .metadata, p⟩ :: us := by
  rcases ts with _ | ⟨⟨token, p⟩, ts⟩
  · cases h
  cases token with
  | keyword word =>
    cases word with
    | metadata => exact ⟨p, ts, rfl⟩
    | _ => cases h
  | _ => cases h

/-- A sign and line ends in front of a brace are dropped. -/
theorem dropNewlines_sign {sign ns : List Lexeme} (hsign : Sign sign) (hns : Newlines ns)
    (opened : Position) (ts : List Lexeme) :
    dropNewlines (dropAssignment (sign ++ (ns ++ ⟨.mark .leftBrace, opened⟩ :: ts))) =
      ⟨.mark .leftBrace, opened⟩ :: ts := by
  have hsignDropped : dropAssignment (sign ++ (ns ++ ⟨.mark .leftBrace, opened⟩ :: ts)) =
      ns ++ ⟨.mark .leftBrace, opened⟩ :: ts := by
    rcases ns with _ | ⟨n, ns⟩
    · exact dropAssignment_sign hsign rfl _
    · refine dropAssignment_sign hsign ?_ _
      rw [hns n (List.mem_cons_self ..)]
      rfl
  rw [hsignDropped, dropNewlines_append hns (by simp)]

/-- The rule for the block reads blocks and nothing else, and stores their entries in order. -/
theorem parse_block {ts rest : List Lexeme} {record : Metadata} :
    run Metadata.parse ts = .ok (record, rest) ↔
      ∃ block entries, ts = block ++ rest ∧ Block block entries ∧ record = .ofList entries := by
  constructor
  · intro h
    obtain ⟨p, us, rfl⟩ := parse_eq_ok h
    -- What the rule needs is a brace after the keyword, an optional sign and any newlines.
    by_cases hbrace : ∃ opened after,
        dropNewlines (dropAssignment us) = ⟨.mark .leftBrace, opened⟩ :: after
    · obtain ⟨opened, after, hafter⟩ := hbrace
      rw [parse_braces p hafter] at h
      obtain ⟨⟨entries, left⟩, hentries, h⟩ := bind_eq_ok.mp h
      cases h
      obtain ⟨qs, rfl, hqs⟩ := (blockEntries_parses _ _ _ _).mp hentries
      obtain ⟨sign, hsign, hus⟩ := exists_sign us
      obtain ⟨ns, hns, hdrop⟩ := exists_newlines (dropAssignment us)
      rw [hafter] at hdrop
      refine ⟨⟨.keyword .metadata, p⟩ :: (sign ++ (ns ++ ⟨.mark .leftBrace, opened⟩ :: qs)),
        entries, ?_, .intro hsign hns hqs, rfl⟩
      rw [hus, hdrop]
      simp
    · rw [parse_error p fun opened after heq => hbrace ⟨opened, after, heq⟩] at h
      cases h
  · rintro ⟨_, entries, rfl, @⟨p, opened, sign, ns, qs, _, hsign, hns, hentries⟩, rfl⟩
    have hread := (blockEntries_parses opened (qs ++ rest) entries rest).mpr ⟨qs, rfl, hentries⟩
    rw [List.cons_append, List.append_assoc, List.append_assoc, List.cons_append,
      parse_braces p (dropNewlines_sign hsign hns _ _), hread]
    rfl

/-- The rule for the metadata block reads what is spelled as such a block and nothing else. Its
record is that in which the entries of the block are stored one after the other, so that the keys
are in the order of their first entries, and each of them has the value of its last one. -/
theorem parse_exact (ts rest : List Lexeme) (record : Metadata) :
    (run Metadata.parse ts = .ok (record, rest) ↔
      ∃ block entries, ts = block ++ rest ∧ Block block entries ∧ record = .ofList entries) ∧
    ∀ entries : List (String × Datum),
      Record.ofList entries = entries.foldl (fun r entry => r.insert entry.1 entry.2) .empty ∧
      (Record.ofList entries).names = (entries.map Prod.fst).eraseDups ∧
      ∀ name, (Record.ofList entries).get? name = Record.lookup name entries.reverse :=
  ⟨parse_block, fun entries => ⟨rfl, Record.names_ofList entries, Record.get?_ofList entries⟩⟩

end Metadata

end HandTemplate
