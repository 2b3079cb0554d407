import Mathlib.Data.List.Forall2
import QuoteLang.Proofs.Lookahead

set_option relaxedAutoImplicit false
set_option autoImplicit false

/-!
# Texts in sequence

Texts that end in a semicolon can be put together. The semicolon is the last lexeme of its
statement, so neither the scanner nor the grammar looks beyond it: the text that consists of two
texts has the lexemes of the first and then those of the second, and is read as the statements of
both. Without the semicolon the end of the first text might be read together with the start of the
second.

## Main definitions

* `Terminated` — the last of some lexemes, if there is one, is a semicolon.
* `Rule.Carries` — a rule that leaves lexemes unread reads the same if further lexemes follow.
* `Reply.map` — a reply with another value.

## Main results

* `lexemes_append` — the lexemes of two texts that are put together.
* `Rule.Local.carries` — a local rule carries further lexemes.
* `Program.ofLexemes_append` — lexemes behind a semicolon are read as they are alone.
* `parse_append`, `parse_join` — texts that are put together are read as all their statements.
-/

namespace QuoteLang

/-! ## Lexemes that end in a semicolon -/

/-- The last of some lexemes is a semicolon, unless there are none. -/
def Terminated (ts : List Lexeme) : Prop :=
  ∀ t ∈ ts.getLast?, t.kind = .semicolon

/-- Whether lexemes end in a semicolon can be decided. -/
instance (ts : List Lexeme) : Decidable (Terminated ts) :=
  inferInstanceAs (Decidable (∀ t ∈ ts.getLast?, t.kind = .semicolon))

/-- So it is for the lexemes that are left if others are taken from the front. -/
lemma Terminated.right {ts us : List Lexeme} (h : Terminated (ts ++ us)) : Terminated us := by
  intro t ht
  refine h t ?_
  rw [List.getLast?_append, Option.mem_def, Option.mem_def.mp ht, Option.some_or]

/-! ## Scanning -/

namespace Piece

variable {c : Char} {cs : List Char}

/-- A run of characters of a class ends where it did if further characters follow, as long as it has
ended before. -/
lemma span_append {p : Char → Bool} (h : cs.dropWhile p ≠ []) (ds : List Char) :
    (cs ++ ds).takeWhile p = cs.takeWhile p ∧ (cs ++ ds).dropWhile p = cs.dropWhile p ++ ds := by
  have hlength : (cs.takeWhile p).length ≠ cs.length := by
    intro heq
    have hsplit := congrArg List.length (List.takeWhile_append_dropWhile (p := p) (l := cs))
    rw [List.length_append, heq, Nat.add_eq_left, List.length_eq_zero_iff] at hsplit
    exact h hsplit
  rw [List.takeWhile_append, if_neg hlength, List.dropWhile_append,
    if_neg (by rwa [List.isEmpty_iff])]
  exact ⟨rfl, rfl⟩

/-- The only piece that is a semicolon is the semicolon. -/
lemma eq_of_kind_scan (h : (scan c cs).lexeme.kind = .semicolon) : c = ';' := by
  unfold scan at h
  split at h
  · have hmem := TokenKind.ofWord_mem (String.ofList (c :: cs.takeWhile isWordChar))
    rw [show TokenKind.ofWord _ = .semicolon from h] at hmem
    simp at hmem
  split at h
  · cases h
  split at h
  · cases h
  split at h
  · cases h
  · cases h
  · have hkind : symbolKind c = .semicolon := h
    unfold symbolKind at hkind
    split at hkind <;> first | rfl | cases hkind

/-- **A piece is not changed by what follows**, if something is left after it or if it is a
semicolon. -/
theorem scan_append (h : (scan c cs).rest ≠ [] ∨ (scan c cs).lexeme.kind = .semicolon)
    (ds : List Char) : (scan c (cs ++ ds)).lexeme = (scan c cs).lexeme ∧
      (scan c (cs ++ ds)).rest = (scan c cs).rest ++ ds := by
  rcases h with hrest | hkind
  case inr =>
    obtain rfl := eq_of_kind_scan hkind
    exact ⟨rfl, rfl⟩
  by_cases hword : isWordChar c = true
  · simp only [scan, hword, if_true, word, plain] at hrest ⊢
    obtain ⟨htake, hdrop⟩ := span_append hrest ds
    simp only [htake, hdrop, and_self]
  rw [Bool.not_eq_true] at hword
  by_cases hdigit : c.isDigit = true
  · simp only [scan, hword, hdigit, Bool.false_eq_true, if_false, if_true, digits, plain] at hrest ⊢
    obtain ⟨htake, hdrop⟩ := span_append hrest ds
    simp only [htake, hdrop, and_self]
  rw [Bool.not_eq_true] at hdigit
  by_cases hquote : isQuote c = true
  · simp only [scan, hword, hdigit, hquote, Bool.false_eq_true, if_false, if_true, quoted]
      at hrest ⊢
    have hafter : cs.dropWhile (!isQuote ·) ≠ [] := by
      intro hnil
      rw [hnil] at hrest
      exact hrest rfl
    obtain ⟨htake, hdrop⟩ := span_append hafter ds
    simp only [htake, hdrop, true_and]
    exact List.drop_append_of_le_length (List.length_pos_iff.mpr hafter)
  rw [Bool.not_eq_true] at hquote
  cases cs with
  | nil =>
    have hlength := rest_length_lt c []
    exact absurd (List.length_eq_zero_iff.mp (Nat.lt_one_iff.mp hlength)) hrest
  | cons d cs =>
    rw [List.cons_append, scan_symbol hword hdigit hquote, scan_symbol hword hdigit hquote]
    split
    · exact ⟨rfl, rfl⟩
    split
    · exact ⟨rfl, rfl⟩
    · exact ⟨rfl, rfl⟩

end Piece

namespace Cursor

/-- Where nothing but blanks is left there are no tokens. -/
lemma tokens_of_blanks {c : Cursor} (h : c.rest.dropWhile isBlank = []) : c.tokens = [] := by
  have hrest : c.skipBlanks.rest = [] := h
  rw [tokens, if_pos (by simp [next, hrest, Lexeme.eof])]

/-- After blanks comes a piece, and then the tokens of what is left after it. -/
lemma tokens_of_piece {c : Cursor} {d : Char} {ds : List Char}
    (h : c.rest.dropWhile isBlank = d :: ds) : ∃ offset, c.tokens.map Token.toLexeme =
      (Piece.scan d ds).lexeme :: (mk offset (Piece.scan d ds).rest).tokens.map Token.toLexeme := by
  have hrest : c.skipBlanks.rest = d :: ds := h
  have hkind : (Piece.scan d ds).lexeme.kind ≠ .eof := by
    intro heof
    have hwritten := Piece.isWritten_scan ds (isBlank_of_dropWhile h)
    rw [Lexeme.IsWritten, heof] at hwritten
    exact hwritten
  rw [tokens]
  simp only [next, hrest, hkind, if_false, List.map_cons]
  exact ⟨_, rfl⟩

/-- The lexemes from a position on depend on what is left after blanks only, and not on how much has
been read. -/
lemma lexemes_eq_of_dropWhile {c c' : Cursor}
    (h : c.rest.dropWhile isBlank = c'.rest.dropWhile isBlank) :
    c.tokens.map Token.toLexeme = c'.tokens.map Token.toLexeme := by
  induction hn : c.rest.length using Nat.strongRecOn generalizing c c' with
  | _ n ih =>
    subst hn
    cases hrest : c.rest.dropWhile isBlank with
    | nil => rw [tokens_of_blanks hrest, tokens_of_blanks (h.symm.trans hrest)]
    | cons d ds =>
      obtain ⟨offset, heq⟩ := tokens_of_piece hrest
      obtain ⟨offset', heq'⟩ := tokens_of_piece (h.symm.trans hrest)
      have hlt : (Piece.scan d ds).rest.length < c.rest.length := by
        have hle := (List.dropWhile_sublist isBlank (l := c.rest)).length_le
        rw [hrest] at hle
        exact Nat.lt_of_lt_of_le (Piece.rest_length_lt d ds) hle
      rw [heq, heq']
      exact congrArg (List.cons _) (ih _ hlt rfl rfl)

/-- **Further characters add their lexemes**, if the lexemes before them end in a semicolon. -/
theorem lexemes_append (offset offset' : Nat) {cs : List Char} (ds : List Char)
    (h : Terminated ((mk offset cs).tokens.map Token.toLexeme)) :
    (mk offset (cs ++ ds)).tokens.map Token.toLexeme =
      (mk offset cs).tokens.map Token.toLexeme ++ (mk offset' ds).tokens.map Token.toLexeme := by
  induction hn : cs.length using Nat.strongRecOn generalizing offset cs with
  | _ n ih =>
    subst hn
    cases hrest : cs.dropWhile isBlank with
    | nil =>
      rw [tokens_of_blanks (c := mk offset cs) hrest, List.map_nil, List.nil_append]
      refine lexemes_eq_of_dropWhile ?_
      rw [List.dropWhile_append, if_pos (by rw [hrest]; rfl)]
    | cons c rest =>
      obtain ⟨offset₁, heq⟩ := tokens_of_piece (c := mk offset cs) hrest
      have hrest' : (cs ++ ds).dropWhile isBlank = c :: (rest ++ ds) := by
        rw [List.dropWhile_append, if_neg (by rw [hrest]; exact Bool.false_ne_true), hrest]
        rfl
      obtain ⟨offset₂, heq'⟩ := tokens_of_piece (c := mk offset (cs ++ ds)) hrest'
      have hlt : (Piece.scan c rest).rest.length < cs.length := by
        have hle := (List.dropWhile_sublist isBlank (l := cs)).length_le
        rw [hrest] at hle
        exact Nat.lt_of_lt_of_le (Piece.rest_length_lt c rest) hle
      rw [heq] at h ⊢
      -- The last piece is the semicolon, so this piece is not changed.
      have hkeep : (Piece.scan c rest).rest ≠ [] ∨
          (Piece.scan c rest).lexeme.kind = .semicolon := by
        refine Decidable.or_iff_not_imp_left.mpr fun hnil => ?_
        rw [Decidable.not_not.mp hnil, tokens_of_blanks rfl, List.map_nil] at h
        exact h _ rfl
      obtain ⟨hlexeme, hafter⟩ := Piece.scan_append hkeep ds
      have hright : Terminated ((mk offset₁ (Piece.scan c rest).rest).tokens.map Token.toLexeme) :=
        Terminated.right (show Terminated ([_] ++ _) from h)
      rw [heq', hlexeme, hafter, List.cons_append, ← ih _ hlt offset₁ hright rfl]
      exact congrArg (List.cons _) (lexemes_eq_of_dropWhile rfl)

end Cursor

/-- **The lexemes of two texts that are put together** are those of the first and then those of the
second, if those of the first end in a semicolon. -/
theorem lexemes_append {source : String} (h : Terminated (lexemes source)) (source' : String) :
    lexemes (source ++ source') = lexemes source ++ lexemes source' := by
  have happend := Cursor.lexemes_append 0 0 source'.toList h
  rw [← String.toList_append] at happend
  exact happend

/-! ## Rules before further lexemes -/

namespace Rule

variable {α : Type}

/-- A rule **carries** further lexemes over to another rule: what it reads without them, the other
reads with them, and leaves them behind what it leaves. Where nothing is left, this is said only if
there are no further lexemes, since the rule may have looked for the end of the text. -/
def Carries (us : List Lexeme) (p q : Rule α) : Prop :=
  ∀ ts a rest, p ts = .ok a rest →
    rest <:+ ts ∧ (rest ≠ [] ∨ us = [] → q (ts ++ us) = .ok a (rest ++ us))

/-- **A local rule carries further lexemes**: where it has left some, the next one is the same. -/
theorem Local.carries {p q : Rule α} (h : Local True p q) (us : List Lexeme) : Carries us p q := by
  intro ts a rest hp
  obtain ⟨before, rfl, hq⟩ := h.ok hp
  refine ⟨List.suffix_append _ _, fun hrest => ?_⟩
  rw [List.append_assoc]
  refine hq (rest ++ us) ?_
  cases rest with
  | nil =>
    obtain rfl := hrest.resolve_left fun hne => hne rfl
    exact ⟨rfl, fun _ => Iff.rfl⟩
  | cons t rest => exact ⟨rfl, fun _ => ⟨nofun, nofun⟩⟩

end Rule

/-! ## Expressions end otherwise -/

/-- Lexemes whose last is no semicolon do not end in one. -/
lemma not_terminated_concat (ts : List Lexeme) {t : Lexeme} (h : t.kind ≠ .semicolon) :
    ¬Terminated (ts ++ [t]) :=
  fun hend => h (hend.right t rfl)

/-- The phrases that are expressions. -/
def Phrase.IsExpr : Phrase → Prop
  | placed _ _ | expr _ => True
  | _ => False

/-- **The spelling of an expression does not end in a semicolon.** -/
theorem Spells.not_terminated {strict : Bool} {ph : Phrase} {us : List Lexeme}
    (h : Spells strict ph us) (hph : ph.IsExpr) : ¬Terminated us := by
  have enclosed (opening : Lexeme) (ts : List Lexeme) {closing : TokenKind}
      (hclosing : closing ≠ .semicolon) : ¬Terminated (opening :: ts ++ [closing.lexeme]) :=
    not_terminated_concat _ hclosing
  induction h with
  | bare _ _ ih => exact ih trivial
  | paren _ _ => exact enclosed _ _ (by decide)
  | ident | int | str => exact not_terminated_concat [] nofun
  | bool b => cases b <;> exact not_terminated_concat [] (by decide)
  | @unary op _ ts _ ih =>
    exact fun hend => ih trivial (Terminated.right (show Terminated ([_] ++ ts) from hend))
  | @binary op _ _ ls rs _ _ _ ihr =>
    rw [List.append_cons]
    exact fun hend => ihr trivial hend.right
  | cond | fnLit | macroLit => exact fun hend => enclosed _ _ (by decide) hend.right
  | condElse =>
    rw [List.append_cons]
    exact fun hend => enclosed _ _ (by decide) hend.right
  | call | index => exact fun hend => enclosed _ _ (by decide) hend.right
  | array | hash => exact enclosed _ _ (by decide)
  | exprsNil | exprsCons | entriesNil | entriesCons | letBind | retNone | ret | exprStmt | stmtsNil
    | stmtsCons => exact hph.elim

namespace Grammar

open Rule

variable {ts rest : List Lexeme} {n m : Nat}

/-- A statement is read up to its semicolon, so that is left unread. -/
lemma unterminated_ne_nil {s : Stmt} (hts : AllWritten ts) (hend : Terminated ts)
    (h : unterminated (expression n .lowest) ts = .ok s rest) : rest ≠ [] := by
  have hexpr {ts rest : List Lexeme} {e : Expr} (hts : AllWritten ts) (hend : Terminated ts)
      (he : expression n .lowest ts = .ok e rest) : rest ≠ [] := by
    obtain ⟨us, rfl, hus⟩ := free_sound (sound n) hts he
    rintro rfl
    rw [List.append_nil] at hend
    exact hus.not_terminated trivial hend
  have hexpect {kind : TokenKind} {ts rest : List Lexeme} {literal : String} (hts : AllWritten ts)
      (hend : Terminated ts) (hread : Rule.expect kind ts = .ok literal rest) :
      AllWritten rest ∧ Terminated rest ∧ (rest = [] → kind = .semicolon) := by
    obtain rfl := expect_eq_ok.mp hread
    refine ⟨hts.tail, Terminated.right (show Terminated ([_] ++ rest) from hend), ?_⟩
    rintro rfl
    exact hend _ rfl
  rw [unterminated, peek_bind] at h
  generalize (ts.headD .eof).kind = kind at h
  cases kind
  case kwLet =>
    obtain ⟨_, ts₁, hlet, h⟩ := bind_eq_ok.mp h
    obtain ⟨hts₁, hend₁, -⟩ := hexpect hts hend hlet
    obtain ⟨_, ts₂, hname, h⟩ := bind_eq_ok.mp h
    obtain ⟨hts₂, hend₂, -⟩ := hexpect hts₁ hend₁ hname
    obtain ⟨_, ts₃, hassign, h⟩ := bind_eq_ok.mp h
    obtain ⟨hts₃, hend₃, -⟩ := hexpect hts₂ hend₂ hassign
    obtain ⟨e, ts₄, he, h⟩ := bind_eq_ok.mp h
    cases h
    exact hexpr hts₃ hend₃ he
  case kwReturn =>
    obtain ⟨_, ts₁, hreturn, h⟩ := bind_eq_ok.mp h
    obtain ⟨hts₁, hend₁, hnil⟩ := hexpect hts hend hreturn
    rw [peek_bind] at h
    split at h
    · cases h
      exact fun hrest => absurd (hnil hrest) (by decide)
    · obtain ⟨e, ts₂, he, h⟩ := bind_eq_ok.mp h
      cases h
      exact hexpr hts₁ hend₁ he
  all_goals
    obtain ⟨e, ts₁, he, h⟩ := bind_eq_ok.mp h
    cases h
    exact hexpr hts hend he

end Grammar

/-! ## Programs in sequence -/

section

variable {α β γ : Type}

/-- A reply with another value in the place of the one that has been read. -/
def Reply.map (f : α → β) : Reply α → Reply β
  | ok a rest => ok (f a) rest
  | fail failure => fail failure
  | exhausted => exhausted

/-- A reply with the same value is the same. -/
lemma Reply.map_id (r : Reply α) : r.map id = r := by
  cases r <;> rfl

/-- Two values in turn are one. -/
lemma Reply.map_map (g : β → γ) (f : α → β) (r : Reply α) :
    (r.map f).map g = r.map fun a => g (f a) := by
  cases r <;> rfl

/-- A rule whose value is changed afterwards. -/
lemma Rule.bind_pure_apply (p : Rule α) (f : α → β) (ts : List Lexeme) :
    (p >>= fun a => Pure.pure (f a)) ts = (p ts).map f := by
  change Rule.bind p (fun a => Rule.pure (f a)) ts = _
  unfold Rule.bind Rule.pure
  cases p ts <;> rfl

end

namespace Grammar

open Rule

variable {ts rest : List Lexeme} {n m : Nat}

/-- A statement in lexemes that end in a semicolon is read in the same way if others follow. -/
lemma statementWith_append {s : Stmt} (hnm : n ≤ m) (hts : AllWritten ts) (hend : Terminated ts)
    (h : statementWith (expression n .lowest) ts = .ok s rest) (us : List Lexeme) :
    rest <:+ ts ∧ statementWith (expression m .lowest) (ts ++ us) = .ok s (rest ++ us) := by
  rw [statementWith_eq] at h ⊢
  obtain ⟨s', ts₁, hread, h⟩ := bind_eq_ok.mp h
  obtain ⟨_, ts₂, hskip, h⟩ := bind_eq_ok.mp h
  cases h
  have hlocal : Local True (unterminated (expression n .lowest))
      (unterminated (expression m .lowest)) :=
    unterminated_related (localAt_congruence True) ((locals True hnm).expression .lowest)
  obtain ⟨hsuffix, hcarry⟩ := hlocal.carries us ts _ ts₁ hread
  obtain ⟨t, ts₂, rfl⟩ := List.exists_cons_of_ne_nil (unterminated_ne_nil hts hend hread)
  have hread' := hcarry (.inl (List.cons_ne_nil t ts₂))
  rw [Rule.skipOptional] at hskip
  rw [bind_of_ok hread', List.cons_append]
  split at hskip
  · rename_i hkind
    cases hskip
    refine ⟨(List.suffix_cons t _).trans hsuffix, ?_⟩
    exact bind_of_ok (by rw [Rule.skipOptional, if_pos hkind])
  · rename_i hkind
    cases hskip
    exact ⟨hsuffix, bind_of_ok (by rw [Rule.skipOptional, if_neg hkind]; rfl)⟩

/-- **Statements that end in a semicolon are read in the same way if others follow**, and then these
are read, or fail to be.

**Proof sketch.** Induction on the budget. Each statement that is read takes one unit; the lexemes
of a statement add four, so enough is left for the others. -/
theorem statements_append {program : Program} (us : List Lexeme) (hts : AllWritten ts)
    (hend : Terminated ts) (hn : budget ts ≤ n) (hnm : n ≤ m) (hm : budget us + ts.length ≤ m)
    (h : statements n .eof ts = .ok program rest) :
    statements m .eof (ts ++ us) = (statements (budget us) .eof us).map (program ++ ·) := by
  induction n generalizing ts m program with
  | zero => cases h
  | succ n ih =>
    obtain ⟨m, rfl⟩ : ∃ k, m = k + 1 := ⟨m - 1, by omega⟩
    have hstmt : Within ts.length 1 (statementWith (expression n .lowest)) :=
      statementWith_within ((settled n ts.length).expression (by unfold budget at hn; omega) _)
    rw [statements, peek_bind] at h
    split at h
    case isTrue hstop =>
      obtain rfl := hts.eq_nil hstop
      cases h
      have hgrow := program_local (Nat.le_of_add_right_le hm)
      rw [List.nil_append, hgrow.agrees (statements_ne_exhausted us .eof)]
      exact (Reply.map_id _).symm
    case isFalse hstop =>
      obtain ⟨s, ts₁, hs, h⟩ := bind_eq_ok.mp h
      obtain ⟨others, ts₂, hothers, h⟩ := bind_eq_ok.mp h
      cases h
      obtain ⟨hsuffix, hs'⟩ := statementWith_append (Nat.le_of_succ_le_succ hnm) hts hend hs us
      have hlength := (hstmt ts (Nat.le_refl _)).2 s ts₁ hs
      obtain ⟨before, rfl⟩ := hsuffix
      have hlater := ih hts.right hend.right (by unfold budget at hn ⊢; omega)
        (Nat.le_of_succ_le_succ hnm) (by omega) hothers
      obtain ⟨t, ts, heq⟩ : ∃ t ts, before ++ ts₁ = t :: ts :=
        List.exists_cons_of_ne_nil fun hnil => hstop (by rw [hnil]; rfl)
      rw [statements, peek_bind]
      rw [heq] at hstop hs' ⊢
      have hne : (((t :: ts) ++ us).headD .eof).kind ≠ .eof := hstop
      rw [if_neg hne, if_neg hne, bind_of_ok hs', bind_pure_apply, hlater, Reply.map_map]
      rfl

end Grammar

/-- Lexemes are read as a program exactly if the grammar reads them as its statements. -/
lemma Program.ofLexemes_eq_ok {ts : List Lexeme} {program : Program} :
    Program.ofLexemes ts = .ok program ↔
      ∃ rest, Grammar.statements (Grammar.budget ts) .eof ts = .ok program rest := by
  obtain ⟨program', rest, hread, hparse⟩ | ⟨f, hread, hparse⟩ := Program.ofLexemes_cases ts
  · simp [hread, hparse]
  · simp [hread, hparse]

/-- **Lexemes behind a semicolon** are read as they are alone, as further statements or as a
failure. -/
theorem Program.ofLexemes_append {ts : List Lexeme} {program : Program} (hts : AllWritten ts)
    (hend : Terminated ts) (h : Program.ofLexemes ts = .ok program) (us : List Lexeme) :
    Program.ofLexemes (ts ++ us) = (Program.ofLexemes us).map (program ++ ·) := by
  obtain ⟨rest, hread⟩ := Program.ofLexemes_eq_ok.mp h
  have hgrow : Grammar.budget ts ≤ Grammar.budget (ts ++ us) ∧
      Grammar.budget us + ts.length ≤ Grammar.budget (ts ++ us) := by
    simp only [Grammar.budget, List.length_append]
    omega
  have happend :=
    Grammar.statements_append us hts hend (Nat.le_refl _) hgrow.1 hgrow.2 hread
  obtain ⟨program', rest', hread', hparse⟩ | ⟨f, hread', hparse⟩ := Program.ofLexemes_cases us
  · rw [hread'] at happend
    rw [hparse]
    exact Program.ofLexemes_of_ok happend
  · rw [hread'] at happend
    rw [hparse]
    exact Program.ofLexemes_of_fail happend

/-- **Two texts that are put together** are read as the statements of both, if the first ends in a
semicolon. -/
theorem parse_append {source source' : String} {program program' : Program}
    (hend : Terminated (lexemes source)) (h : parse source = .ok program)
    (h' : parse source' = .ok program') :
    parse (source ++ source') = .ok (program ++ program') := by
  rw [parse_eq_ok_iff] at *
  rw [lexemes_append hend,
    Program.ofLexemes_append (fun _ => Lexeme.isWritten_of_mem_lexemes) hend h, h']
  rfl

/-- **Texts that end in semicolons are read as all their statements** if they are put together. -/
theorem parse_join {sources : List String} {programs : List Program}
    (hend : ∀ source ∈ sources, Terminated (lexemes source))
    (h : List.Forall₂ (fun source program => parse source = .ok program) sources programs) :
    parse (String.join sources) = .ok programs.flatten := by
  induction h with
  | nil => exact parse_eq_ok_of_toOption (by decide +kernel)
  | @cons source program sources programs hparse _ ih =>
    rw [List.forall_mem_cons] at hend
    rw [String.join_cons, List.flatten_cons]
    exact parse_append hend.1 hparse (ih hend.2)

end QuoteLang
