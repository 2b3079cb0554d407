import QuoteLang.Proofs.FirstError
import QuoteLang.Proofs.Sequence

set_option relaxedAutoImplicit false
set_option autoImplicit false

/-!
# What the reading of a text depends on

The grammar reads lexemes. Where they stand in the text, which blanks are between them and whether
the last string has a final quote is not seen in a program, and in an error it is seen only in the
part of the text that is shown. So texts with the same lexemes are read alike, and a text behind a
semicolon is read as it is alone.

## Main definitions

* `Failure.report` — what is reported of a failure besides the context.
* `ParseError.withoutContext` — an error without the part of the text that is shown.

## Main results

* `mapError_parse` — what a text is read as, up to contexts, is what its lexemes are read as.
* `parse_layout` — texts with the same lexemes are read alike.
* `parse_sequence` — a text behind a semicolon is read as it is alone.
-/

namespace QuoteLang

/-! ## Errors without a context -/

/-- What is reported of a failure to read lexemes besides the context. -/
def Failure.report (f : Failure) : ParseError :=
  ⟨f.cause, f.cause.message f.lexeme.literal, none, some f.lexeme.literal⟩

/-- An error without the part of the text that is shown: its cause, its message and the found
text. -/
def ParseError.withoutContext (e : ParseError) : ParseError :=
  { e with context := none }

/-- **What a text is read as**, up to contexts, is what its lexemes are read as. -/
theorem mapError_parse (source : String) :
    (parse source).mapError ParseError.withoutContext =
      (Program.ofLexemes (lexemes source)).mapError Failure.report := by
  rw [parse]
  cases Program.ofLexemes (lexemes source) <;> rfl

/-- The lexemes from the one that a failure is about on are the last of all. -/
lemma Program.exists_of_ofLexemes_error {ts : List Lexeme} {f : Failure}
    (h : Program.ofLexemes ts = .error f) : ∃ us, ts = us ++ f.rest := by
  obtain ⟨program, rest, -, hparse⟩ | ⟨f', hfail, hparse⟩ := Program.ofLexemes_cases ts
  · rw [hparse] at h
    cases h
  · rw [hparse] at h
    cases h
    obtain ⟨us, hsplit, -⟩ := (Grammar.program_local (Nat.le_refl _)).fail hfail
    exact ⟨us, hsplit⟩

/-! ## Texts with the same lexemes -/

/-- **Texts with the same lexemes are read alike**: as the same program, or with errors of the same
cause, message and found text. The contexts of such errors are the surroundings of one token, by its
place among the tokens. -/
theorem parse_layout {source source' : String} (h : lexemes source = lexemes source') :
    (parse source).mapError ParseError.withoutContext =
      (parse source').mapError ParseError.withoutContext ∧
    ∀ e e', parse source = .error e → parse source' = .error e' → ∃ k,
      e.context = some (contextWindow source ((Cursor.start source).token k).offset) ∧
      e'.context = some (contextWindow source' ((Cursor.start source').token k).offset) := by
  refine ⟨by rw [mapError_parse, mapError_parse, h], fun e e' he he' => ?_⟩
  cases hread : Program.ofLexemes (lexemes source) with
  | ok program =>
    rw [parse, hread] at he
    cases he
  | error f =>
    obtain ⟨us, hsplit⟩ := Program.exists_of_ofLexemes_error hread
    rw [parse, hread] at he
    rw [parse, ← h, hread] at he'
    cases he
    cases he'
    refine ⟨us.length, ?_, ?_⟩
    · rw [ParseError.ofFailure_eq hsplit]
      rfl
    · rw [ParseError.ofFailure_eq (h.symm.trans hsplit)]
      rfl

/-- Two texts of a `let` without a name, with other blanks and one of them without the final quote,
fail alike. -/
theorem parse_layout_let :
    lexemes "let = \"a b" = lexemes "let\n  =\"a b\"" ∧
    ∃ e e', parse "let = \"a b" = .error e ∧ parse "let\n  =\"a b\"" = .error e' ∧
      e.withoutContext = e'.withoutContext ∧ ∃ k,
        e.context = some (contextWindow "let = \"a b"
          ((Cursor.start "let = \"a b").token k).offset) ∧
        e'.context = some (contextWindow "let\n  =\"a b\""
          ((Cursor.start "let\n  =\"a b\"").token k).offset) := by
  have hsame : lexemes "let = \"a b" = lexemes "let\n  =\"a b\"" := by decide +kernel
  have hnone : (parse "let = \"a b").toOption = none := by decide +kernel
  obtain ⟨hreports, hcontexts⟩ := parse_layout hsame
  refine ⟨hsame, ?_⟩
  cases he : parse "let = \"a b" with
  | ok program =>
    rw [he] at hnone
    cases hnone
  | error e =>
    rw [he] at hreports
    cases he' : parse "let\n  =\"a b\"" with
    | ok program =>
      rw [he'] at hreports
      cases hreports
    | error e' =>
      rw [he'] at hreports
      exact ⟨e, e', rfl, rfl, Except.error.inj hreports, hcontexts e e' he he'⟩

/-! ## Texts in sequence -/

/-- **A text behind a semicolon is read as it is alone**: its statements follow those before them,
or it fails with an error of the same cause, message and found text. -/
theorem parse_sequence {source : String} {program : Program} (hend : Terminated (lexemes source))
    (h : parse source = .ok program) (source' : String) :
    (parse (source ++ source')).mapError ParseError.withoutContext =
      ((parse source').map (program ++ ·)).mapError ParseError.withoutContext := by
  have hread : Program.ofLexemes (lexemes source) = .ok program := parse_eq_ok_iff.mp h
  have happend := Program.ofLexemes_append (fun _ => Lexeme.isWritten_of_mem_lexemes) hend hread
    (lexemes source')
  calc (parse (source ++ source')).mapError ParseError.withoutContext
    _ = ((Program.ofLexemes (lexemes source')).map (program ++ ·)).mapError Failure.report := by
      rw [mapError_parse, lexemes_append hend, happend]
    _ = ((parse source').map (program ++ ·)).mapError ParseError.withoutContext := by
      rw [parse]
      cases Program.ofLexemes (lexemes source') <;> rfl

/-- Behind `let x = 1;` a text that is read and one that fails end as they do alone. -/
theorem parse_sequence_let :
    Terminated (lexemes "let x = 1;") ∧ ∃ program, parse "let x = 1;" = .ok program ∧
      (parse " x").toOption = some [.expr (.ident "x")] ∧
      (parse ("let x = 1;" ++ " x")).mapError ParseError.withoutContext =
        ((parse " x").map (program ++ ·)).mapError ParseError.withoutContext ∧
      (parse "let = 5;").toOption = none ∧
      (parse ("let x = 1;" ++ "let = 5;")).mapError ParseError.withoutContext =
        ((parse "let = 5;").map (program ++ ·)).mapError ParseError.withoutContext := by
  have hend : Terminated (lexemes "let x = 1;") := by decide +kernel
  have hparse : parse "let x = 1;" = .ok [.letBind "x" (.int 1)] :=
    parse_eq_ok_of_toOption (by decide +kernel)
  exact ⟨hend, _, hparse, by decide +kernel, parse_sequence hend hparse " x", by decide +kernel,
    parse_sequence hend hparse "let = 5;"⟩

end QuoteLang
