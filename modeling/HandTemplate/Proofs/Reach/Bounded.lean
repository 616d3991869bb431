import HandTemplate.Proofs.Expansion.Limit
import HandTemplate.Proofs.Reach.Compilation

/-!
# Sizes of the values of an expansion

A list is as long as it is written, in a tuple or in the metadata, or its length is checked against
the limit on items when it is made; taking elements away, choosing one and putting them into another
order makes no list longer. So no list at any moment of an expansion is longer than the longest one
that is written or than the limit allows, whichever is more, and neither is any list within a list.
Main statement: `Program.expand_bounded`.
-/

namespace HandTemplate

/-- A value whose lists have at most `items` elements and whose tile groups have at most `tiles`
tiles, in all of its parts. -/
inductive Value.Bounded (items tiles : Nat) : Value → Prop where
  | integer {value : Int64} : Bounded items tiles (.integer value)
  | real {value : Binary64} : Bounded items tiles (.real value)
  | text {value : String} : Bounded items tiles (.text value)
  | symbol {value : String} : Bounded items tiles (.symbol value)
  | bool {value : Bool} : Bounded items tiles (.bool value)
  | null : Bounded items tiles .null
  | list {vs : List Value} (hlength : vs.length ≤ items) (hvs : ∀ v ∈ vs, Bounded items tiles v) :
      Bounded items tiles (.list vs)
  | group {g : TileGroup} (hsize : g.size ≤ tiles) : Bounded items tiles (.group g)
  | builtin {name : String} : Bounded items tiles (.builtin name)

/-! ## Lists that are written -/

namespace Expr

mutual

/-- The length of the longest tuple in an expression. -/
def longestTuple : Expr → Nat
  | number _ _ | text _ _ | tile _ _ | identifier _ _ | range _ _ _ => 0
  | tuple elements _ => max elements.length (longestTupleOf elements)
  | call _ arguments _ => longestTupleOf arguments
  | index target place _ => max target.longestTuple place.longestTuple
  | binary _ left right _ => max left.longestTuple right.longestTuple

/-- The length of the longest tuple in some expressions. -/
def longestTupleOf : List Expr → Nat
  | [] => 0
  | e :: es => max e.longestTuple (longestTupleOf es)

end

end Expr

namespace Statement

mutual

/-- The length of the longest tuple in a statement. -/
def longestTuple : Statement → Nat
  | assign _ value _ => value.longestTuple
  | foreach _ source body _ => max source.longestTuple (longestTupleOf body)
  | call _ arguments _ => Expr.longestTupleOf arguments

/-- The length of the longest tuple in some statements. -/
def longestTupleOf : List Statement → Nat
  | [] => 0
  | s :: statements => max s.longestTuple (longestTupleOf statements)

end

end Statement

namespace Datum

mutual

/-- The length of the longest list in a value of the metadata. -/
def longestList : Datum → Nat
  | text _ | integer _ | real _ | bool _ | null => 0
  | list items => max items.length (longestListOf items)

/-- The length of the longest list in some values of the metadata. -/
def longestListOf : List Datum → Nat
  | [] => 0
  | d :: ds => max d.longestList (longestListOf ds)

end

end Datum

/-- What bounds the lists of an expansion: the limit on items, the longest tuple of the statements
and the longest list of the metadata. -/
def Program.longest (program : Program) (config : Config) : Nat :=
  max config.maxItems (max (Statement.longestTupleOf program.body)
    (Datum.longestListOf (program.metadata.entries.map Prod.snd)))

/-! ## What is made of bounded values -/

namespace Value

variable {items tiles : Nat} {config : Config} {p : Position}

/-- A bounded list has no more items than it may, and these are bounded. -/
theorem Bounded.list_inv {vs : List Value} (h : Bounded items tiles (.list vs)) :
    vs.length ≤ items ∧ ∀ a ∈ vs, a.Bounded items tiles := by
  cases h with | list hlength hvs => exact ⟨hlength, hvs⟩

/-- A range is checked against the limit. -/
theorem interval_bounded (hitems : config.maxItems ≤ items) {first last : Int64} {v : Value}
    (h : Builtin.interval first last config p = .ok v) : v.Bounded items tiles := by
  obtain ⟨hcount, rfl⟩ := Builtin.interval_eq_ok.mp h
  refine .list ?_ fun a ha => ?_
  · rw [List.length_map, Number.length_range]
    exact Nat.le_trans hcount hitems
  · obtain ⟨n, -, rfl⟩ := List.mem_map.mp ha
    exact .integer

/-- A shape asks for five copies at most. -/
theorem copies_bounded (htiles : 5 ≤ tiles) (shape : GroupShape) (code : String) :
    Bounded items tiles (.group (.ofCopies shape code)) := by
  have hcopies : shape.copies.getD 1 ≤ 5 := by cases shape <;> decide
  refine .group ?_
  rw [TileGroup.size, TileGroup.ofCopies, List.length_replicate]
  exact Nat.le_trans hcopies htiles

/-- Each ordering of a list is as long as the list, so that it is enough that there are not too many
of them. -/
theorem orderings_bounded {vs : List Value} (hlist : Bounded items tiles (.list vs))
    (hcount : (Orderings.all vs).length ≤ items) :
    Bounded items tiles (.list ((Orderings.all vs).map .list)) := by
  obtain ⟨hlength, helements⟩ := hlist.list_inv
  refine .list (by rwa [List.length_map]) fun a ha => ?_
  obtain ⟨ordering, hordering, rfl⟩ := List.mem_map.mp ha
  refine .list ?_ fun a ha => helements a ((Orderings.mem_all.mp hordering).subset ha)
  rwa [(Orderings.mem_all.mp hordering).length_eq]

/-- What a builtin gives for bounded arguments is bounded. -/
theorem apply_bounded (hitems : config.maxItems ≤ items) (htiles : max config.maxItems 5 ≤ tiles)
    (hlimit : config.maxItems < Orderings.countLimit) {b : Builtin} {vs : List Value}
    (hvs : ∀ a ∈ vs, a.Bounded items tiles) {v : Value} (h : b.apply config p vs = .ok v) :
    v.Bounded items tiles := by
  obtain ⟨hsequence, hcopies⟩ := Nat.max_le.mp htiles
  -- Copies and lists have the arguments' own elements; only what counts is checked against the
  -- limit.
  cases Builtin.apply_eq_ok.mp h with
  | @copies shape => exact copies_bounded hcopies shape _
  | sequence _ _ hcount hg =>
    -- The length of a sequence is checked against the limit.
    refine .group ?_
    rw [TileGroup.size, TileGroup.length_of_ascending? hg]
    exact Nat.le_trans hcount hsequence
  | @complement target left =>
    obtain ⟨hlength, helements⟩ := (hvs (.list left) (by simp)).list_inv
    have hsublist := Builtin.without_sublist left (Builtin.targets target)
    exact .list (Nat.le_trans hsublist.length_le hlength)
      fun a ha => helements a (hsublist.subset ha)
  | @permutations listed hcount =>
    have hall := Orderings.length_all_le hlimit hcount
    exact orderings_bounded (hvs (.list listed) (by simp)) (Nat.le_trans hall hitems)
  | range hcount =>
    exact interval_bounded hitems (Builtin.interval_eq_ok (p := p).mpr ⟨hcount, rfl⟩)

/-- An item of a bounded list is bounded. -/
theorem itemAt_bounded {target place v : Value} (htarget : target.Bounded items tiles)
    (h : Expansion.itemAt p target place = .ok v) : v.Bounded items tiles := by
  obtain ⟨listed, n, rfl, -, -, hitem⟩ := Expansion.itemAt_eq_ok.mp h
  exact htarget.list_inv.2 v (List.mem_of_getElem? hitem)

/-- The length of two lists that are joined is checked against the limit. -/
theorem operate_bounded (hitems : config.maxItems ≤ items) {operator : Operator}
    {left right v : Value} (hleft : left.Bounded items tiles) (hright : right.Bounded items tiles)
    (h : Expansion.operate config p operator left right = .ok v) : v.Bounded items tiles := by
  cases Expansion.operate_eq_ok.mp h with
  | sum => exact .integer
  | product => exact .integer
  | append hcount =>
    refine .list ?_ fun a ha => ?_
    · rw [List.length_append]
      exact Nat.le_trans hcount hitems
    · rcases List.mem_append.mp ha with ha | ha
      · exact hleft.list_inv.2 a ha
      · exact hright.list_inv.2 a ha

/-- What a loop over a bounded value visits is bounded. -/
theorem elements_bounded {v : Value} (hv : v.Bounded items tiles) {vs : List Value}
    (h : v.elements? = some vs) : ∀ a ∈ vs, a.Bounded items tiles := by
  cases hv with
  | list _ hvs =>
    cases h
    exact hvs
  | text =>
    cases h
    intro a ha
    obtain ⟨c, -, rfl⟩ := List.mem_map.mp ha
    exact .text
  | group =>
    cases h
    intro a ha
    obtain ⟨code, -, rfl⟩ := List.mem_map.mp ha
    exact .symbol
  | _ => cases h

/-- Evaluation makes bounded values of bounded ones. -/
theorem bounded_passed (hitems : config.maxItems ≤ items) (htiles : max config.maxItems 5 ≤ tiles)
    (hlimit : config.maxItems < Orderings.countLimit) : Passed config (Bounded items tiles) where
  symbol _ := .symbol
  apply hvs h := apply_bounded hitems htiles hlimit hvs h
  item htarget _ h := itemAt_bounded htarget h
  operate hleft hright h := operate_bounded hitems hleft hright h
  elements hv h := elements_bounded hv h

end Value

/-! ## Programs -/

section
variable {items tiles : Nat} {config : Config}

mutual

/-- The literals of an expression without longer tuples are bounded. -/
theorem Expr.literals_bounded (hitems : config.maxItems ≤ items) : (e : Expr) →
    e.longestTuple ≤ items → e.Literals config (Value.Bounded items tiles)
  | .number _ _, _ => .number .integer
  | .text _ _, _ => .text .text
  | .tile _ _, _ => .tile
  | .identifier _ _, _ => .identifier
  | .range _ _ _, _ => .range fun _ h => Value.interval_bounded hitems h
  | .tuple elements _, h => by
    obtain ⟨hlength, helements⟩ := Nat.max_le.mp h
    refine .tuple (fun vs hvs hbounded => .list ?_ hbounded)
      (literalsOf_bounded hitems elements helements)
    rw [hvs]
    exact hlength
  | .call _ arguments _, h => .call (literalsOf_bounded hitems arguments h)
  | .index target place _, h =>
    .index (literals_bounded hitems target (Nat.max_le.mp h).1)
      (literals_bounded hitems place (Nat.max_le.mp h).2)
  | .binary _ left right _, h =>
    .binary (literals_bounded hitems left (Nat.max_le.mp h).1)
      (literals_bounded hitems right (Nat.max_le.mp h).2)

/-- So are those of some expressions. -/
theorem Expr.literalsOf_bounded (hitems : config.maxItems ≤ items) : (es : List Expr) →
    longestTupleOf es ≤ items → ∀ e ∈ es, e.Literals config (Value.Bounded items tiles)
  | [], _ => nofun
  | e :: es, h => List.forall_mem_cons.mpr
    ⟨literals_bounded hitems e (Nat.max_le.mp h).1,
      literalsOf_bounded hitems es (Nat.max_le.mp h).2⟩

end

mutual

/-- The literals of a statement without longer tuples are bounded. -/
theorem Statement.literals_bounded (hitems : config.maxItems ≤ items) : (s : Statement) →
    s.longestTuple ≤ items → s.Literals config (Value.Bounded items tiles)
  | .assign _ value _, h => .assign (value.literals_bounded hitems h)
  | .foreach _ source body _, h =>
    .foreach (source.literals_bounded hitems (Nat.max_le.mp h).1)
      (literalsOf_bounded hitems body (Nat.max_le.mp h).2)
  | .call _ arguments _, h => .call (Expr.literalsOf_bounded hitems arguments h)

/-- So are those of some statements. -/
theorem Statement.literalsOf_bounded (hitems : config.maxItems ≤ items) :
    (statements : List Statement) → longestTupleOf statements ≤ items →
      ∀ s ∈ statements, s.Literals config (Value.Bounded items tiles)
  | [], _ => nofun
  | s :: statements, h => List.forall_mem_cons.mpr
    ⟨literals_bounded hitems s (Nat.max_le.mp h).1,
      literalsOf_bounded hitems statements (Nat.max_le.mp h).2⟩

end

mutual

/-- A value of the metadata without longer lists is bounded. -/
theorem Datum.bounded : (d : Datum) → d.longestList ≤ items →
    (Value.ofDatum d).Bounded items tiles
  | .text _, _ => by rw [Value.ofDatum]; exact .text
  | .integer _, _ => by rw [Value.ofDatum]; exact .integer
  | .real _, _ => by rw [Value.ofDatum]; exact .real
  | .bool _, _ => by rw [Value.ofDatum]; exact .bool
  | .null, _ => by rw [Value.ofDatum]; exact .null
  | .list ds, h => by
    obtain ⟨hlength, hds⟩ := Nat.max_le.mp h
    rw [Value.ofDatum]
    refine .list (by rwa [List.length_map]) fun v hv => ?_
    obtain ⟨d, hd, rfl⟩ := List.mem_map.mp hv
    exact boundedOf ds hds d hd

/-- So are several of them. -/
theorem Datum.boundedOf : (ds : List Datum) → longestListOf ds ≤ items →
    ∀ d ∈ ds, (Value.ofDatum d).Bounded items tiles
  | [], _ => nofun
  | d :: ds, h => List.forall_mem_cons.mpr
    ⟨bounded d (Nat.max_le.mp h).1, boundedOf ds (Nat.max_le.mp h).2⟩

end

end

namespace Program

open Expansion

variable {program : Program} {config : Config}

/-- All values at the first moment of an expansion are bounded. -/
theorem first_bounded {tiles : Nat} :
    (program.first config).Sound config (Value.Bounded (program.longest config) tiles) := by
  obtain ⟨hitems, hwritten⟩ := Nat.max_le.mp (Nat.le_refl (program.longest config))
  obtain ⟨htuples, hlists⟩ := Nat.max_le.mp hwritten
  refine ⟨⟨rfl, fun scope hscope => ?_⟩, Statement.literalsOf_bounded hitems program.body htuples⟩
  -- The only scope is the outermost one, of builtins and of metadata.
  rw [List.mem_singleton.mp hscope]
  refine outermostScope_forall (fun _ _ => .builtin) fun entry hentry => ?_
  exact Datum.boundedOf _ hlists entry.2 (List.mem_map_of_mem hentry)

/-- At every moment of an expansion, the values that are bound, visited and computed have lists of
at most as many elements as the longest list that is written or the limit on items, and tile groups
of at most five tiles or that limit; and an expansion that succeeds gives no more variations than
the limit. The limit has to be one that the number of orderings can be compared with, as every
64-bit word is. -/
theorem expand_bounded (program : Program) (config : Config)
    (hlimit : config.maxItems < Orderings.countLimit) :
    (∀ x, (program.first config).Reaches x →
      (∀ scope ∈ x.state.scopes, ∀ name v, scope.get? name = some v →
        v.Bounded (program.longest config) (max config.maxItems 5)) ∧
      (∀ v ∈ x.activity.items, v.Bounded (program.longest config) (max config.maxItems 5)) ∧
      ∀ vs m, x.activity.step x.state = .ok vs m →
        ∀ v ∈ vs, v.Bounded (program.longest config) (max config.maxItems 5)) ∧
    ∀ vs, program.expand config = .ok vs → vs.length ≤ config.maxItems := by
  have hpassed : Passed config (Value.Bounded (program.longest config) (max config.maxItems 5)) :=
    Value.bounded_passed (Nat.le_max_left ..) (Nat.le_refl _) hlimit
  refine ⟨fun x hreaches => ?_, fun vs h => ?_⟩
  · have hx := hreaches.sound hpassed first_bounded
    exact ⟨hx.state.scopes, hx.items, fun vs m h => hx.gives hpassed h⟩
  · obtain ⟨hs, hhs, rfl⟩ := hands_of_expand h
    rw [List.length_map]
    -- One variation too many would have failed.
    by_contra hmany
    obtain ⟨p, hfails⟩ := (expand_of_hands hhs).2 (Nat.lt_of_not_le hmany)
    rw [h] at hfails
    cases hfails

/-- Six orderings of three elements are as many as the limit allows, and so are the hands that begin
with each of them. The longest list that is written, of the metadata, is longer. -/
theorem expand_bounded_permutations :
    let orderings : Expr := .call "permutations" [.tuple [.number 1 ⟨1, 25⟩, .number 2 ⟨1, 27⟩,
      .number 3 ⟨1, 29⟩] ⟨1, 24⟩] ⟨1, 11⟩
    let program : Program := ⟨.ofList [("ranks", .list (List.replicate 7 .null))],
      [.foreach (.name "o") orderings
        [.call "single" [.index (.identifier "o" ⟨2, 8⟩) (.number 0 ⟨2, 10⟩) ⟨2, 9⟩] ⟨2, 1⟩]
        ⟨1, 1⟩]⟩
    let config : Config := { maxItems := 6 }
    let v : Value :=
      .list ((Orderings.all [.integer 1, .integer 2, .integer 3]).map .list)
    config.maxItems < Orderings.countLimit ∧ program.longest config = 7 ∧
      (∃ m, (program.first config).Reaches ⟨.value orderings .nothing, m⟩ ∧
        exprValue orderings .nothing m = .ok v m ∧ v.Bounded 7 6) ∧
      ∃ vs, program.expand config = .ok vs ∧
        vs.map Variation.tiles = [["1"], ["1"], ["2"], ["2"], ["3"], ["3"]] ∧ vs.length ≤ 6 := by
  intro orderings program config v
  have hlongest : program.longest config = 7 := by decide
  have hexpand : (program.expand config).map (List.map Variation.tiles) =
      .ok [["1"], ["1"], ["2"], ["2"], ["3"], ["3"]] := by decide +kernel
  -- The first step of the run evaluates the orderings, and their bound is that of the theorem.
  obtain ⟨hmoments, hcount⟩ := expand_bounded program config (by decide)
  obtain ⟨vs, hvs, htiles⟩ := Outcome.map_eq_ok.mp hexpand
  have hreaches : (program.first config).Reaches
      ⟨.value orderings .nothing, (program.opening config).deeper⟩ :=
    .head .block (.head .statement (.single (.source (by decide))))
  have hvalue : exprValue orderings .nothing (program.opening config).deeper =
      .ok v (program.opening config).deeper := rfl
  have hgives := (hmoments _ hreaches).2.2 [v] (program.opening config).deeper rfl v
    (List.mem_singleton_self v)
  rw [hlongest] at hgives
  exact ⟨by decide, hlongest, ⟨_, hreaches, hvalue, hgives⟩, vs, hvs, htiles, hcount vs hvs⟩

end Program

end HandTemplate
