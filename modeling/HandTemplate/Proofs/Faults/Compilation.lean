import HandTemplate.Proofs.Faults.Execution
import HandTemplate.Proofs.Faults.Program
import HandTemplate.Proofs.Lexemes.Places
import HandTemplate.Template

/-!
# Faults of compilations

What the agreement of two runs says about compiling a text. A template that compiles under some
configuration compiles to the same under any that is no stricter, and a fault that is not due to the
configuration stays the same (`compile_relaxed`): the limits decide whether there is a result, and
never which. And every fault has its place in the text (`compile_located`): a fault of the text at
the stretch that is rejected, and one of the structure or the expansion at a lexeme, which is the
one that the fault speaks of.
-/

namespace HandTemplate

/-- Compiling a text, stage by stage. -/
theorem compile_eq (source : String) (c : Config) :
    compile source c =
      match tokenize source with
      | .error e => .error (.lex e)
      | .ok lexemes =>
        match Program.parse c.maxDepth lexemes with
        | .error e => .error (.parse e)
        | .ok program =>
          match program.expand c with
          | .error e => .error (.eval e)
          | .ok variations => .ok ⟨program.metadata, variations⟩ := by
  unfold compile Program.ofSource
  cases tokenize source with
  | error e => rfl
  | ok lexemes =>
    dsimp only [Except.mapError, bind, Except.bind]
    cases Program.parse c.maxDepth lexemes with
    | error e => rfl
    | ok program =>
      dsimp only
      cases program.expand c <;> rfl

/-! ## Relaxed limits -/

/-- A fault that another configuration may remove: too deep a nesting, too many items, or a name
that is bound to nothing if the two configurations differ in what becomes of those. -/
def CompileFault.Removable (c c' : Config) : CompileFault → Prop
  | lex _ => False
  | parse e => ∃ limit p, e = .tooDeep limit p
  | eval e => e.Removable c c'

/-- Under a configuration that is no stricter, a template that compiles is compiled to the same, and
a fault that the configuration cannot remove is the same fault. -/
theorem compile_relaxed {c c' : Config} (hrelaxed : c.RelaxedBy c') (source : String) :
    (∀ template, compile source c = .ok template → compile source c' = .ok template) ∧
      ∀ e, compile source c = .error e → ¬ e.Removable c c' → compile source c' = .error e := by
  rw [compile_eq, compile_eq]
  cases tokenize source with
  | error e => exact ⟨fun template h => (nomatch h), fun e h _ => h⟩
  | ok lexemes =>
  -- The tokens are the same. The program is the same, unless a nesting is too deep under `c`.
  obtain ⟨hok, herror⟩ := Program.parse_larger_limit hrelaxed.depth lexemes
  dsimp only
  cases hparse : Program.parse c.maxDepth lexemes with
  | error e =>
    refine ⟨fun template h => (nomatch h), fun e' h hstays => ?_⟩
    cases h
    rw [herror e hparse fun limit p heq => hstays ⟨limit, p, heq⟩]
  | ok program =>
  rw [hok program hparse]
  dsimp only
  -- Every part of the program has its place among the lexemes, so that its expansions agree.
  have hagree := Program.expand_agrees hrelaxed (Program.parse_placed hparse)
  generalize program.expand c = r at hagree
  generalize program.expand c' = r' at hagree
  cases hagree with
  | ok variations => exact ⟨fun template h => h, fun e h _ => (nomatch h)⟩
  | error => exact ⟨fun template h => (nomatch h), fun e h _ => h⟩
  | removable _ he =>
    refine ⟨fun template h => (nomatch h), fun e h hstays => ?_⟩
    cases h
    exact absurd he hstays

/-- With room for more levels and items, and with names that stand for themselves, a tile compiles
to what it compiled to, and a wrong operand is still one. -/
theorem compile_relaxed_operands :
    let c : Config := { maxDepth := 3, maxItems := 1, symbolAtoms := false }
    let tile := "metadata\x7b\x7dvariations\x7bsingle('E')\x7d"
    let operands := "metadata\x7b\x7dvariations\x7bsingle(1+'E')\x7d"
    c.RelaxedBy {} ∧ compile tile {} = .ok ⟨.ofList [], [⟨["E"], none, none⟩]⟩ ∧
      compile operands {} =
        .error (.eval ⟨.wrongType (.operands .add .integer .symbol), ⟨1, 30⟩⟩) := by
  intro c tile operands
  have hrelaxed : c.RelaxedBy {} := ⟨by decide, by decide, by decide⟩
  have htile : compile tile c = .ok ⟨.ofList [], [⟨["E"], none, none⟩]⟩ := by cbv
  have hoperands : compile operands c =
      .error (.eval ⟨.wrongType (.operands .add .integer .symbol), ⟨1, 30⟩⟩) := by cbv
  exact ⟨hrelaxed, (compile_relaxed hrelaxed tile).1 _ htile,
    (compile_relaxed hrelaxed operands).2 _ hoperands (fun h => h)⟩

/-! ## Places of faults -/

/-- The words for the token that a fault has found in place of another one. -/
def GrammarFault.found? : GrammarFault → Option String
  | noMetadata found _ | noVariations found _ | noStatement found _ | noIn found _
  | unexpected _ found _ | trailing found _ => some found.words
  | unclosed .. | tooDeep .. | endOfText _ => none

/-- The name of a variable or a function that a fault is about. -/
def ExpansionFault.name? (e : ExpansionFault) : Option String :=
  match e.cause with
  | .unboundName name | .unknownBuiltin name | .wrongCount name _ _ => some name
  | _ => none

/-- A fault of the structure stands at the token that it has found, at the mark that opens its
delimiter or at some token; only the end of the text has no position. -/
def GrammarFault.Located (lexemes : List Lexeme) (e : GrammarFault) : Prop :=
  match e.position? with
  | none => ∃ expected, e = .endOfText expected
  | some p =>
    ∃ token, tokenAt? lexemes p = some token ∧ (∀ words ∈ e.found?, words = token.words) ∧
      ∀ d q, e = .unclosed d q → token = .mark d.opening

/-- A fault of the expansion stands at a token, which is the name that the fault is about if it is
about one. -/
def ExpansionFault.Located (lexemes : List Lexeme) (e : ExpansionFault) : Prop :=
  ∃ token, tokenAt? lexemes e.position = some token ∧ ∀ name ∈ e.name?, token = .identifier name

/-- A fault stands where the text is rejected after the lexemes before, or at one of the lexemes of
the whole text. -/
inductive CompileFault.Located (source : String) : CompileFault → Prop where
  | lex {e : LexicalFault} {before rest : List Char} {lexemes : List Lexeme}
      (htext : source.toList = before ++ rest)
      (hposition : e.position = Position.start.advance before)
      (hsplits : Lexer.Splits .start source.toList lexemes e.position rest)
      (hrejected : Lexer.Rejected rest e.cause) : Located source (.lex e)
  | parse {e : GrammarFault} {lexemes : List Lexeme} (htokens : tokenize source = .ok lexemes)
      (hlocated : e.Located lexemes) : Located source (.parse e)
  | eval {e : ExpansionFault} {lexemes : List Lexeme} (htokens : tokenize source = .ok lexemes)
      (hlocated : e.Located lexemes) : Located source (.eval e)

section
variable {source : String} {lexemes : List Lexeme} (htokens : tokenize source = .ok lexemes)
include htokens

/-- A fault of the structure that names a lexeme of a text stands there. -/
theorem GrammarFault.Names.located {e : GrammarFault} (h : e.Names lexemes) :
    e.Located lexemes := by
  -- Different lexemes stand at different positions, so that a position gives its token back.
  have hat {token : Token} {p : Position} (ht : ⟨token, p⟩ ∈ lexemes) :
      tokenAt? lexemes p = some token := tokenAt?_of_mem htokens ht
  cases e with
  | noMetadata found p | noVariations found p | noStatement found p | noIn found p
  | unexpected _ found p | trailing found p =>
    refine ⟨found, hat h, ?_, nofun⟩
    rintro words ⟨⟩
    rfl
  | unclosed d p =>
    refine ⟨.mark d.opening, hat h, nofun, ?_⟩
    rintro d q ⟨⟩
    rfl
  | tooDeep limit p =>
    obtain ⟨token, ht⟩ := h
    exact ⟨token, hat ht, nofun, nofun⟩
  | endOfText expected => exact ⟨expected, rfl⟩

/-- A fault of the expansion that names a lexeme of a text stands there. -/
theorem ExpansionFault.Names.located {e : ExpansionFault} (h : e.Names lexemes) :
    e.Located lexemes := by
  obtain ⟨cause, p⟩ := e
  cases cause with
  | unboundName name | unknownBuiltin name | wrongCount name =>
    refine ⟨.identifier name, tokenAt?_of_mem htokens h, ?_⟩
    rintro name ⟨⟩
    rfl
  | _ =>
    obtain ⟨token, ht⟩ := h.among
    exact ⟨token, tokenAt?_of_mem htokens ht, nofun⟩

end

/-- Every fault of a compilation has its place in the text: where the text is rejected, or at a
lexeme, which is the one that the fault speaks of. -/
theorem compile_located {source : String} {c : Config} {e : CompileFault}
    (h : compile source c = .error e) : e.Located source := by
  rw [compile_eq] at h
  cases htokens : tokenize source with
  | error fault =>
    rw [htokens] at h
    cases h
    -- The lexer has read everything before the place where it fails.
    obtain ⟨lexemes, rest, hsplits, hrejected⟩ := rejected_of_tokenize htokens
    obtain ⟨before, htext, hposition⟩ := hsplits.eq_append
    exact .lex htext hposition hsplits hrejected
  | ok lexemes =>
  rw [htokens] at h
  dsimp only at h
  cases hparse : Program.parse c.maxDepth lexemes with
  | error fault =>
    rw [hparse] at h
    cases h
    exact .parse htokens ((Program.parse_names hparse).located htokens)
  | ok program =>
  rw [hparse] at h
  dsimp only at h
  -- A fault of the expansion names a lexeme, since every part of the program is placed at one.
  have hplaced := Program.parse_placed hparse
  cases hexpand : program.expand c with
  | error fault =>
    rw [hexpand] at h
    cases h
    exact .eval htokens ((Program.expand_names hplaced hexpand).located htokens)
  | ok variations =>
    rw [hexpand] at h
    cases h

/-- A call of a name that is bound to no function is reported at that name. -/
theorem compile_located_call :
    let source := "metadata\x7b\x7dvariations\x7bchow(1)\x7d"
    compile source {} = .error (.eval ⟨.unknownBuiltin "chow", ⟨1, 22⟩⟩) ∧
      CompileFault.Located source (.eval ⟨.unknownBuiltin "chow", ⟨1, 22⟩⟩) := by
  intro source
  have hfault : compile source {} = .error (.eval ⟨.unknownBuiltin "chow", ⟨1, 22⟩⟩) := by cbv
  exact ⟨hfault, compile_located hfault⟩

end HandTemplate
