import QuoteLang.Proofs.Completion

set_option relaxedAutoImplicit false
set_option autoImplicit false

/-!
# The first token that fits no program

An error points at a token of the text. What comes before this token can be completed to a program,
and what comes up to and with it cannot: every text that starts with the same tokens fails for the
same cause. The end of the text counts as a token here, as the scanner answers it.

## Main results

* `ParseError.ofFailure_eq` — an error is reported at the token that the reading has stopped at.
* `exists_completion` — lexemes that have been read start a program.
* `ofLexemes_fails_alike`, `parse_fails_alike` — lexemes and texts that agree up to the next lexeme
  fail alike.
* `exists_failure`, `blames_of_fail`, `exists_parse_of_fail` — what an error says about its token.
* `parse_error_first` — an error is about the first token that fits no program.
-/

namespace QuoteLang

section

variable {source : String} {us rest : List Lexeme}

/-- The token behind the first lexemes of a text. -/
lemma toLexeme_token_length (h : lexemes source = us ++ rest) :
    ((Cursor.start source).token us.length).toLexeme = rest.headD .eof := by
  rw [toLexeme_token, h, List.getElem?_append_right (Nat.le_refl _), Nat.sub_self]
  cases rest <;> rfl

/-- **An error is reported at the token that the reading has stopped at.** -/
theorem ParseError.ofFailure_eq {f : Failure} (h : lexemes source = us ++ f.rest) :
    let t := (Cursor.start source).token us.length
    ParseError.ofFailure source (scan source) f =
      .atOffset f.cause (f.cause.message t.literal) source t.offset (some t.literal) := by
  intro t
  have hlexeme : f.lexeme = t.toLexeme := (toLexeme_token_length h).symm
  have hlength : (scan source).length - f.rest.length = us.length := by
    have hsum := congrArg List.length h
    rw [lexemes, List.length_map, List.length_append] at hsum
    omega
  have hoffset : offsetOf source (scan source) f.rest.length = t.offset := by
    rw [offsetOf, hlength, show t = _ from Cursor.token_start source us.length]
    cases (scan source)[us.length]? <;> rfl
  rw [ofFailure, hoffset, hlexeme]

/-- The lexemes of a text are written. -/
lemma allWritten_of_lexemes_eq (h : lexemes source = us) : AllWritten us := by
  subst h
  exact fun _ => Lexeme.isWritten_of_mem_lexemes

/-- A text with given lexemes in it. -/
lemma exists_source {ts : List Lexeme} (hts : AllWritten ts) : ∃ source, lexemes source = ts := by
  refine ⟨String.ofList (spaced ts), Layout.lexemes_eq ?_ hts⟩
  rw [String.toList_ofList]
  exact layout_spaced ts

/-- **Lexemes that have been read start a program**, whatever has stopped the reading. -/
theorem exists_completion {n : Nat} (hus : AllWritten us)
    (h : (Grammar.statements n .eof (us ++ rest)).rest? = some rest) :
    ∃ source program, us <+: lexemes source ∧ parse source = .ok program := by
  have hall := (Grammar.completable n).statements (F := (· = [])) (.inr ⟨rfl, fun _ hnil => hnil⟩)
  have hread : ∃ vs program, AllWritten vs ∧
      Rule.Reaches (fun m => Grammar.statements m .eof) (us ++ (vs ++ [])) program [] := by
    by_cases hne : us = []
    · subst hne
      obtain ⟨vs, program, hvs, hstart⟩ := hall.starts
      exact ⟨vs, program, hvs, (hstart [] rfl).2⟩
    · obtain ⟨vs, program, hvs, hgo⟩ := hall.continues us rest hne h
      exact ⟨vs, program, hvs, hgo [] rfl⟩
  obtain ⟨vs, program, hvs, k, hread⟩ := hread
  rw [List.append_nil] at hread
  obtain ⟨source, hsource⟩ := exists_source (hus.append hvs)
  refine ⟨source, program, ⟨vs, hsource.symm⟩, ?_⟩
  rw [parse_eq_ok_iff, hsource]
  exact Program.ofLexemes_of_ok (hread _ (Nat.le_refl _))

/-- **Lexemes that agree up to the next one fail alike.** -/
theorem ofLexemes_fails_alike {n : Nat} {f : Failure} {rest' : List Lexeme}
    (h : Grammar.statements n .eof (us ++ f.rest) = .fail f) (hrest : AllWritten f.rest)
    (hrest' : AllWritten rest') (hnext : f.lexeme = rest'.headD .eof) :
    Program.ofLexemes (us ++ rest') = .error ⟨f.cause, rest'⟩ := by
  have hsame : SameNext True f.rest rest' := by
    refine ⟨hnext, fun _ => ⟨fun hnil => hrest'.eq_nil ?_, fun hnil => hrest.eq_nil ?_⟩⟩
    · rw [← hnext, Failure.lexeme, hnil]
      rfl
    · rw [show f.rest.headD .eof = _ from hnext, hnil]
      rfl
  obtain ⟨us', hsplit, hfail⟩ := (Grammar.program_local (Nat.le_refl n)).fail h
  obtain rfl := List.append_cancel_right hsplit
  exact Program.ofLexemes_of_fail (hfail rest' hsame)

/-- **Texts that agree up to the token that the reading has stopped at fail alike.** -/
theorem parse_fails_alike {source' : String} {n : Nat} {f : Failure}
    (hsplit : lexemes source = us ++ f.rest)
    (hfail : Grammar.statements n .eof (lexemes source) = .fail f)
    (hagree : answers source' (us.length + 1) = answers source (us.length + 1)) :
    ∃ rest', f.lexeme = rest'.headD .eof ∧
      parse source' = .error (.ofFailure source' (scan source') ⟨f.cause, rest'⟩) := by
  have hwritten : AllWritten (us ++ f.rest) := allWritten_of_lexemes_eq hsplit
  have hus : NoEnd us := hwritten.left.noEnd
  rw [answers_succ, answers_succ, (answers_eq_iff hus).mpr ⟨f.rest, hsplit.symm⟩] at hagree
  obtain ⟨hbefore, hlast⟩ := List.append_inj' hagree rfl
  obtain ⟨rest', hsplit'⟩ := (answers_eq_iff hus).mp hbefore
  have hnext : f.lexeme = rest'.headD .eof := by
    rw [Failure.lexeme, ← toLexeme_token_length hsplit, ← toLexeme_token_length hsplit'.symm]
    exact (List.head_eq_of_cons_eq hlast).symm
  have hwritten' : AllWritten (us ++ rest') := allWritten_of_lexemes_eq hsplit'.symm
  rw [hsplit] at hfail
  have hfails := ofLexemes_fails_alike hfail hwritten.right hwritten'.right hnext
  rw [hsplit'] at hfails
  exact ⟨rest', hnext, by rw [parse, hfails]⟩

/-- What has been read when reading has failed, and what has not. -/
theorem exists_failure {e : ParseError} (h : parse source = .error e) :
    ∃ us n f, lexemes source = us ++ f.rest ∧
      Grammar.statements n .eof (lexemes source) = .fail f ∧
        e = .ofFailure source (scan source) f := by
  obtain ⟨program, rest, -, hparse⟩ | ⟨f, hfail, hparse⟩ := Program.ofLexemes_cases (lexemes source)
  · rw [parse_eq_ok_iff.mpr hparse] at h
    cases h
  rw [parse, hparse] at h
  cases h
  generalize Grammar.budget (lexemes source) = n at hfail
  have hlocal : Rule.Local True (Grammar.statements n .eof) (Grammar.statements n .eof) :=
    (Grammar.locals True (Nat.le_refl n)).statements .eof fun _ => trivial
  obtain ⟨us, hsplit, -⟩ := hlocal.fail hfail
  exact ⟨us, n, f, hsplit, hfail, rfl⟩

section

variable {n : Nat} {f : Failure} (hsplit : lexemes source = us ++ f.rest)
  (hfail : Grammar.statements n .eof (lexemes source) = .fail f)

include hsplit hfail

/-- The cause of a failure is about the token that the reading has stopped at. -/
theorem blames_of_fail : f.cause.Blames ((Cursor.start source).token us.length).toLexeme := by
  rw [toLexeme_token_length hsplit]
  exact (Grammar.blaming n).statements .eof (fun _ => trivial) _ _ f rfl hfail

/-- The tokens before the one that the reading has stopped at start a program. -/
theorem exists_parse_of_fail : ∃ source' program,
    answers source' us.length = answers source us.length ∧ parse source' = .ok program := by
  have hus : AllWritten us := (allWritten_of_lexemes_eq hsplit).left
  rw [hsplit] at hfail
  obtain ⟨source', program, hstart, hread⟩ := exists_completion hus (by rw [hfail]; rfl)
  refine ⟨source', program, ?_, hread⟩
  rw [(answers_eq_iff hus.noEnd).mpr hstart]
  exact ((answers_eq_iff hus.noEnd).mpr ⟨f.rest, hsplit.symm⟩).symm

end

end

/-- **An error is about the first token that fits no program.** It is reported at this token, and
its cause names the kind of the token and not as one that may stand there. Every text with the same
tokens up to this one fails with the same cause, message and token; with other tokens from this one
on there is a text that is read as a program. -/
theorem parse_error_first {source : String} {e : ParseError} (h : parse source = .error e) :
    ∃ k ≤ (lexemes source).length,
      let t := (Cursor.start source).token k
      e = .atOffset e.cause e.message source t.offset (some t.literal) ∧
      e.cause.Blames t.toLexeme ∧
      (∀ source', answers source' (k + 1) = answers source (k + 1) → ∃ e',
        parse source' = .error e' ∧ e'.cause = e.cause ∧ e'.message = e.message ∧
          e'.found = e.found) ∧
      ∃ source' program, answers source' k = answers source k ∧ parse source' = .ok program := by
  obtain ⟨us, n, f, hsplit, hfail, rfl⟩ := exists_failure h
  have herror := ParseError.ofFailure_eq hsplit
  refine ⟨us.length, by rw [hsplit, List.length_append]; omega, ?_, blames_of_fail hsplit hfail, ?_,
    exists_parse_of_fail hsplit hfail⟩
  · rw [herror]
    rfl
  · intro source' hagree
    obtain ⟨rest', hnext, hfails⟩ := parse_fails_alike hsplit hfail hagree
    refine ⟨_, hfails, rfl, ?_, ?_⟩
    · show f.cause.message (rest'.headD .eof).literal = f.cause.message f.lexeme.literal
      rw [hnext]
    · show some (rest'.headD .eof).literal = some f.lexeme.literal
      rw [hnext]

/-- In `let = 5;` the first token that fits no program is the second, since a name has to come
there. -/
theorem parse_error_first_let :
    ∃ e, parse "let = 5;" = .error e ∧ ∃ k ≤ (lexemes "let = 5;").length,
      let t := (Cursor.start "let = 5;").token k
      e = .atOffset e.cause e.message "let = 5;" t.offset (some t.literal) ∧
      e.cause.Blames t.toLexeme ∧
      (∀ source', answers source' (k + 1) = answers "let = 5;" (k + 1) → ∃ e',
        parse source' = .error e' ∧ e'.cause = e.cause ∧ e'.message = e.message ∧
          e'.found = e.found) ∧
      ∃ source' program, answers source' k = answers "let = 5;" k ∧
        parse source' = .ok program := by
  have hnone : (parse "let = 5;").toOption = none := by decide +kernel
  cases hparse : parse "let = 5;" with
  | ok program =>
    rw [hparse] at hnone
    cases hnone
  | error e => exact ⟨e, rfl, parse_error_first hparse⟩

end QuoteLang
