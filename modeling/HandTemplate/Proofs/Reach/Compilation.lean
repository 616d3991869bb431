import HandTemplate.Proofs.Expansion.Outermost
import HandTemplate.Proofs.Faults.Program
import HandTemplate.Proofs.Lexemes.Segmentation
import HandTemplate.Proofs.Reach.Written
import HandTemplate.Template

/-!
# Values that a compilation reaches

The digits of a text spell no negative integers, and the outermost scope binds every builtin under
its own name. So all values at every moment of a compilation are written ones. Main statement:
`compile_written`.
-/

namespace HandTemplate

open Expansion Outcome

/-! ## Programs of a text -/

namespace Token

/-- The integers that a token stands for are not negative. -/
def Unsigned : Token → Prop
  | integer n => 0 ≤ n.toInt
  | range first last => 0 ≤ first.toInt ∧ 0 ≤ last.toInt
  | _ => True

end Token

/-- Digits spell no negative integer. -/
theorem Lexer.Splits.unsigned {p q : Position} {text rest : List Char} {lexemes : List Lexeme}
    (h : Lexer.Splits p text lexemes q rest) : ∀ t ∈ lexemes, t.token.Unsigned := by
  -- By induction on the split, since each lexeme has the form of its stretch.
  induction h with
  | done => exact fun _ ht => nomatch ht
  | skip _ _ ih => exact ih
  | @lexeme _ _ _ _ _ _ token hstretch _ ih =>
    refine List.forall_mem_cons.mpr ⟨?_, ih⟩
    have hform := hstretch.form
    generalize hout : (Except.ok (some token) : Lexer.Outcome) = out at hform
    cases hform with
    | integer _ hn =>
      cases hout
      exact hn.symm.subst (Int.natCast_nonneg _)
    | range _ _ hfirst hlast =>
      cases hout
      exact ⟨hfirst.symm.subst (Int.natCast_nonneg _), hlast.symm.subst (Int.natCast_nonneg _)⟩
    | reserved hword =>
      cases hout
      cases hword <;> trivial
    | _ => cases hout <;> trivial

section
variable {W : List Lexeme} {config : Config} (hW : ∀ t ∈ W, t.token.Unsigned)
include hW

/-- The literals of an expression are written if the integers of its lexemes are not negative. -/
theorem Expr.Placed.literals {e : Expr} (h : e.Placed W) : e.Literals config Value.Written := by
  induction h with
  | number hp => exact .number (.integer (hW _ hp))
  | text => exact .text .text
  | tile => exact .tile
  | identifier => exact .identifier
  | range hp => exact .range fun _ hv => Value.interval_written (hW _ hp).1 hv
  | tuple _ _ ih => exact .tuple (fun vs _ hvs => .list hvs) ih
  | call _ _ ih => exact .call ih
  | index _ _ _ htarget hplace => exact .index htarget hplace
  | binary _ _ _ hleft hright => exact .binary hleft hright

/-- The literals of a statement that is read from the lexemes of a source are written. -/
theorem Statement.Placed.literals {s : Statement} (h : s.Placed W) :
    s.Literals config Value.Written := by
  induction h with
  | assign _ hvalue => exact .assign (hvalue.literals hW)
  | foreach _ hsource _ ih => exact .foreach (hsource.literals hW) ih
  | call _ harguments => exact .call fun e he => (harguments e he).literals hW

/-- A value of the metadata is written if the integers of its lexemes are not negative. -/
theorem Datum.Placed.written {d : Datum} (h : d.Placed W) : (Value.ofDatum d).Written := by
  induction h with
  | list _ ih =>
    rw [Value.ofDatum]
    refine .list fun v hv => ?_
    obtain ⟨d, hd, rfl⟩ := List.mem_map.mp hv
    exact ih d hd
  | integer hp =>
    rw [Value.ofDatum]
    exact .integer (hW _ hp)
  | _ =>
    rw [Value.ofDatum]
    constructor

/-- The outermost scope of a program binds written values. -/
theorem outermostScope_written {metadata : Metadata} (h : Metadata.Placed W metadata.entries) :
    ∀ name v, (outermostScope metadata).get? name = some v → v.Written := by
  refine outermostScope_forall (fun b hb => ?_) fun entry hentry => (h entry hentry).written hW
  exact .builtin (List.find?_isSome.mpr ⟨b, hb, decide_eq_true rfl⟩)

end

/-! ## Compilations -/

/-- The first moment of the expansion of a program. -/
def Program.first (program : Program) (config : Config) : Moment :=
  ⟨.block program.body .start, program.opening config⟩

/-- The expansion of a program fails as its first moment does. -/
theorem Program.fails_first {program : Program} {config : Config} {e : ExpansionFault} :
    (program.first config).Fails e ↔ program.expand config = .error e := by
  rw [Program.expand_eq_error]
  exact fails_map

/-- A compilation fails in its last stage exactly if the program of the text reaches a moment that
raises the fault. -/
theorem compile_eq_eval_error {source : String} {config : Config} {e : ExpansionFault} :
    compile source config = .error (.eval e) ↔
      ∃ program, Program.ofSource source config.maxDepth = .ok program ∧
        ∃ x, (program.first config).Reaches x ∧ x.Raises e := by
  -- Reading the text does not fail with a fault of the last stage; only the expansion does.
  have hexpand : ∀ program : Program, ((program.expand config).mapError CompileFault.eval >>=
      fun variations => pure (⟨program.metadata, variations⟩ : Template)) = .error (.eval e) ↔
        program.expand config = .error e := by
    intro program
    cases program.expand config with
    | ok variations => exact ⟨fun h => (nomatch h), fun h => (nomatch h)⟩
    | error e' => exact ⟨fun h => by cases h; rfl, fun h => by cases h; rfl⟩
  have hsource : Program.ofSource source config.maxDepth ≠ .error (.eval e) := by
    unfold Program.ofSource
    cases tokenize source with
    | error e' => exact nofun
    | ok lexemes =>
      change (Program.parse config.maxDepth lexemes).mapError CompileFault.parse ≠ _
      cases Program.parse config.maxDepth lexemes <;> exact nofun
  unfold compile
  rw [bind_eq_error]
  constructor
  · rintro (h | ⟨program, hprogram, h⟩)
    · exact absurd h hsource
    · rw [hexpand, ← Program.fails_first, Moment.fails_iff_reaches] at h
      exact ⟨program, hprogram, h⟩
  · rintro ⟨program, hprogram, h⟩
    refine .inr ⟨program, hprogram, ?_⟩
    rw [hexpand, ← Program.fails_first, Moment.fails_iff_reaches]
    exact h

/-- All values at every moment that the program of a text reaches are written ones. -/
theorem reaches_written {source : String} {config : Config} {program : Program}
    (hprogram : Program.ofSource source config.maxDepth = .ok program) {x : Moment}
    (hx : (program.first config).Reaches x) : x.Sound config Value.Written := by
  obtain ⟨lexemes, htokens, hparse⟩ := bind_eq_ok.mp hprogram
  -- The text has lexemes, of which the program is made.
  have htokenize : tokenize source = .ok lexemes := by
    cases htokenize : tokenize source with
    | error e =>
      rw [htokenize] at htokens
      cases htokens
    | ok ts =>
      rw [htokenize] at htokens
      cases htokens
      rfl
  have hparsed : Program.parse config.maxDepth lexemes = .ok program := by
    cases hparsed : Program.parse config.maxDepth lexemes with
    | error e =>
      rw [hparsed] at hparse
      cases hparse
    | ok parsed =>
      rw [hparsed] at hparse
      cases hparse
      rfl
  obtain ⟨q, hsplits⟩ := splits_of_tokenize htokenize
  have hunsigned := hsplits.unsigned
  have hmetadata := Program.parse_metadata_placed hparsed
  have hbody := Program.parse_placed hparsed
  -- At the first moment only builtins and metadata are bound, and the body has the literals of the
  -- text.
  refine hx.sound (Value.written_passed config) ⟨⟨rfl, fun scope hscope => ?_⟩, fun s hs => ?_⟩
  · rw [List.mem_singleton.mp hscope]
    exact outermostScope_written hunsigned hmetadata
  · exact (hbody s hs).literals hunsigned

/-- A compilation that fails in its last stage does so for a cause that there is among written
values. -/
theorem compile_cause {source : String} {config : Config} {e : ExpansionFault}
    (h : compile source config = .error (.eval e)) :
    e.Plain ∨
      (∃ (length : Nat) (found : Int64) (p : Position),
        e = ⟨.noSuchItem length found, p⟩ ∧ length ≤ found.toInt) ∨
      ∃ (program : Program) (name : String) (arguments : List Expr) (p : Position) (m : Expansion),
        Program.ofSource source config.maxDepth = .ok program ∧
          (program.first config).Reaches ⟨.call name arguments p, m⟩ ∧
            e = ⟨.unknownBuiltin name, p⟩ ∧ ∀ b, m.valueOf? name ≠ some (.builtin b) := by
  obtain ⟨program, hprogram, ⟨a, m⟩, hreaches, hraises⟩ := compile_eq_eval_error.mp h
  rcases hraises.cause (reaches_written hprogram hreaches) with
    hplain | hitem | ⟨name, arguments, p, ha, he, hnone⟩
  · exact .inl hplain
  · exact .inr (.inl hitem)
  · cases ha
    exact .inr (.inr ⟨program, name, arguments, p, m, hprogram, hreaches, he, hnone⟩)

/-- Among written values, a call is of an unknown builtin exactly if its name is bound to none. -/
theorem raises_unknownBuiltin {config : Config} {name : String} {arguments : List Expr}
    {p : Position} {m : Expansion}
    (hm : Moment.Sound config Value.Written ⟨.call name arguments p, m⟩) :
    Moment.Raises ⟨.call name arguments p, m⟩ ⟨.unknownBuiltin name, p⟩ ↔
      ∀ b, m.valueOf? name ≠ some (.builtin b) := by
  constructor
  · intro hraises
    rcases hraises.cause hm with hplain | ⟨_, _, _, he, -⟩ | ⟨name', _, _, -, he, hnone⟩
    · exact absurd hplain id
    · cases he
    · cases he
      exact hnone
  · exact fun hnone => .unknown ((fails_callee hm.state).mpr ⟨hnone, rfl⟩)

/-- At every moment of a compilation, the values that are bound, visited and computed have no
negative integers in them, and only builtins' names are bound as builtins; so a call is of an
unknown builtin exactly if its name is bound to none. A compilation therefore never fails for a
negative length, for a missing item only beyond the end of the list, and for an unknown builtin
exactly if it reaches a call whose name is bound to none. -/
theorem compile_written (source : String) (config : Config) :
    (∀ program, Program.ofSource source config.maxDepth = .ok program →
      ∀ x, (program.first config).Reaches x →
        (∀ scope ∈ x.state.scopes, ∀ name v, scope.get? name = some v → v.Written) ∧
        (∀ v ∈ x.activity.items, v.Written) ∧
        (∀ vs m, x.activity.step x.state = .ok vs m → ∀ v ∈ vs, v.Written) ∧
        ∀ name arguments p, x.activity = .call name arguments p →
          (x.Raises ⟨.unknownBuiltin name, p⟩ ↔
            ∀ b, x.state.valueOf? name ≠ some (.builtin b))) ∧
    (∀ count p, compile source config ≠ .error (.eval ⟨.wrongType (.negativeLength count), p⟩)) ∧
    (∀ (length : Nat) found p,
      compile source config = .error (.eval ⟨.noSuchItem length found, p⟩) →
        length ≤ found.toInt) ∧
    ∀ name p, compile source config = .error (.eval ⟨.unknownBuiltin name, p⟩) ↔
      ∃ program arguments m, Program.ofSource source config.maxDepth = .ok program ∧
        (program.first config).Reaches ⟨.call name arguments p, m⟩ ∧
          ∀ b, m.valueOf? name ≠ some (.builtin b) := by
  refine ⟨fun program hprogram x hreaches => ?_, fun count p h => ?_, fun length found p h => ?_,
    fun name p => ⟨fun h => ?_, ?_⟩⟩
  · have hx := reaches_written hprogram hreaches
    refine ⟨hx.state.scopes, hx.items, fun vs m h => hx.gives (Value.written_passed config) h, ?_⟩
    rintro name arguments p ha
    obtain ⟨_, m⟩ := x
    cases ha
    exact raises_unknownBuiltin hx
  -- Among written values no length is negative, and an item is missing only beyond the end of its
  -- list.
  · rcases compile_cause h with hplain | ⟨_, _, _, he, -⟩ | ⟨_, _, _, _, _, -, -, he, -⟩
    · exact hplain
    · cases he
    · cases he
  · rcases compile_cause h with hplain | ⟨_, _, _, he, hle⟩ | ⟨_, _, _, _, _, -, -, he, -⟩
    · exact absurd hplain id
    · cases he
      exact hle
    · cases he
  · rcases compile_cause h with
      hplain | ⟨_, _, _, he, -⟩ | ⟨program, _, arguments, _, m, hprogram, hreaches, he, hnone⟩
    · exact absurd hplain id
    · cases he
    · cases he
      exact ⟨program, arguments, m, hprogram, hreaches, hnone⟩
  -- Conversely, a call whose name is bound to no builtin is itself what raises the fault.
  · rintro ⟨program, arguments, m, hprogram, hreaches, hnone⟩
    have hraises := (raises_unknownBuiltin (reaches_written hprogram hreaches)).mpr hnone
    exact compile_eq_eval_error.mpr ⟨program, hprogram, _, hreaches, hraises⟩

/-- A call of a name that stands for a number is reached, and raises the fault itself; a missing
item is asked for at a place beyond the end of its list. -/
theorem compile_written_number :
    (∃ program arguments m,
      Program.ofSource "metadata\x7b\x7dvariations\x7bf=1 f(2)\x7d" 64 = .ok program ∧
        (program.first {}).Reaches ⟨.call "f" arguments ⟨1, 26⟩, m⟩ ∧
          Moment.Raises ⟨.call "f" arguments ⟨1, 26⟩, m⟩ ⟨.unknownBuiltin "f", ⟨1, 26⟩⟩) ∧
      compile "metadata\x7b\x7dvariations\x7bsingle((1,2)[5])\x7d" {} =
        .error (.eval ⟨.noSuchItem 2 5, ⟨1, 34⟩⟩) ∧ 2 ≤ (5 : Int64).toInt := by
  have hcall : compile "metadata\x7b\x7dvariations\x7bf=1 f(2)\x7d" {} =
      .error (.eval ⟨.unknownBuiltin "f", ⟨1, 26⟩⟩) := by cbv
  have hitem : compile "metadata\x7b\x7dvariations\x7bsingle((1,2)[5])\x7d" {} =
      .error (.eval ⟨.noSuchItem 2 5, ⟨1, 34⟩⟩) := by cbv
  obtain ⟨hmoments, -, -, hcalls⟩ :=
    compile_written "metadata\x7b\x7dvariations\x7bf=1 f(2)\x7d" {}
  obtain ⟨program, arguments, m, hprogram, hreaches, hnone⟩ := (hcalls "f" ⟨1, 26⟩).mp hcall
  have hraises := (hmoments program hprogram _ hreaches).2.2.2 "f" arguments ⟨1, 26⟩ rfl
  exact ⟨⟨program, arguments, m, hprogram, hreaches, hraises.mpr hnone⟩, hitem,
    (compile_written _ {}).2.2.1 2 5 ⟨1, 34⟩ hitem⟩

end HandTemplate
