import QuoteLang.Proofs.Lookahead
import QuoteLang.Proofs.Tiling

set_option relaxedAutoImplicit false
set_option autoImplicit false

/-!
# Reading comes to an end

The scanner answers the end of the text as often as it is asked. A rule that waits for a closing
token could ask it for ever. None does: every rule answers with a budget that grows linearly with
the number of lexemes before the first end, it reads none of the ends, and it reads at least one
lexeme where that is an expression or a statement.

In `Rule`, the empty list stands for the end of the text. Here the ends are written out, as the
scanner answers them, and the rules treat them in the same way.

## Main definitions

* `ends` — the end of the text, so many times.
* `answers` — the lexemes that so many calls of the scanner answer.
* `Grammar.Halts` — a rule answers in time, and reads no end of the text.

## Main results

* `answers_eq` — the scanner answers the lexemes of the text, and then ends.
* `Grammar.Halts.of_within` — a rule halts if it is local and its budget is large enough.
* `Grammar.statements_ends` — a program is read up to the first end and not beyond it.
* `Grammar.allHalt` — every rule halts.
* `parse_halts` — every text is read as a program, up to its end, or reported as an error.
-/

namespace QuoteLang

/-! ## Ends of the text -/

/-- The end of the text, as often as it is asked for. -/
def ends (k : Nat) : List Lexeme :=
  List.replicate k .eof

/-- The lexemes that so many calls of the scanner answer, from the start of a text on. -/
def answers (source : String) (n : Nat) : List Lexeme :=
  (List.range n).map fun i => ((Cursor.start source).token i).toLexeme

/-- No lexeme stands for the end of the text. -/
def NoEnd (ts : List Lexeme) : Prop :=
  ∀ t ∈ ts, t.kind ≠ .eof

/-- So it is for the lexemes that are left. -/
lemma NoEnd.right {ts us : List Lexeme} (h : NoEnd (ts ++ us)) : NoEnd us :=
  fun t ht => h t (List.mem_append_right _ ht)

/-- Written lexemes do not stand for the end of the text. -/
lemma AllWritten.noEnd {ts : List Lexeme} (h : AllWritten ts) : NoEnd ts := by
  intro t ht heof
  have hwritten := h t ht
  rw [Lexeme.IsWritten, heof] at hwritten
  exact hwritten

/-- The lexemes of a text do not stand for its end. -/
lemma noEnd_lexemes (source : String) : NoEnd (lexemes source) :=
  AllWritten.noEnd fun _ => Lexeme.isWritten_of_mem_lexemes

/-- The lexeme of a token that is read is that of the text, or the end of the text. -/
lemma toLexeme_token (source : String) (i : Nat) :
    ((Cursor.start source).token i).toLexeme = (lexemes source)[i]?.getD .eof := by
  rw [Cursor.token_start, lexemes, List.getElem?_map]
  cases (scan source)[i]? <;> rfl

/-- **The scanner answers the lexemes of a text**, and then its end as often as it is asked. -/
theorem answers_eq (source : String) (k : Nat) :
    answers source ((lexemes source).length + k) = lexemes source ++ ends k := by
  simp only [answers, toLexeme_token]
  rw [List.range_add, List.map_append, List.map_map]
  congr 1
  · refine List.ext_getElem (by simp) fun i hi hi' => ?_
    simp [List.getElem?_eq_getElem hi']
  · refine List.eq_replicate_iff.mpr ⟨by simp, fun t ht => ?_⟩
    obtain ⟨i, -, rfl⟩ := List.mem_map.mp ht
    show (lexemes source)[(lexemes source).length + i]?.getD .eof = _
    rw [List.getElem?_eq_none (Nat.le_add_right _ _)]
    rfl

/-- Fewer calls answer the first of the lexemes. -/
lemma take_answers (source : String) {m n : Nat} (h : m ≤ n) :
    (answers source n).take m = answers source m := by
  rw [answers, ← List.map_take, List.take_range, Nat.min_eq_left h, answers]

/-- One more call answers one more lexeme. -/
lemma answers_succ (source : String) (n : Nat) :
    answers source (n + 1) = answers source n ++ [((Cursor.start source).token n).toLexeme] := by
  rw [answers, List.range_succ, List.map_append, answers]
  rfl

/-- **The lexemes before the end of a text that are answered first** are those that it starts
with. -/
theorem answers_eq_iff {source : String} {us : List Lexeme} (hus : NoEnd us) :
    answers source us.length = us ↔ us <+: lexemes source := by
  have htake : (lexemes source ++ ends us.length).take us.length = answers source us.length := by
    rw [← answers_eq, take_answers source (Nat.le_add_left _ _)]
  constructor
  · intro h
    rw [h] at htake
    have hsplit := List.take_append_drop us.length (lexemes source ++ ends us.length)
    rw [htake] at hsplit
    rcases List.append_eq_append_iff.mp hsplit with ⟨vs, hvs, -⟩ | ⟨vs, hvs, hends⟩
    · exact ⟨vs, hvs.symm⟩
    · -- Of the ends of the text there is none among the lexemes.
      cases vs with
      | nil => exact ⟨[], by rw [hvs, List.append_nil, List.append_nil]⟩
      | cons t vs =>
        have ht : t ∈ ends us.length := by rw [hends]; exact List.mem_cons_self
        have heof := hus t (by rw [hvs]; simp)
        rw [List.eq_of_mem_replicate ht] at heof
        exact absurd rfl heof
  · rintro ⟨rest, hrest⟩
    rw [← htake, ← hrest, List.append_assoc, List.take_left]

/-- Where the end of the text comes next, it comes next with the ends written out. -/
lemma sameNext_ends (ts : List Lexeme) (k : Nat) : SameNext False ts (ts ++ ends k) := by
  refine ⟨?_, False.elim⟩
  cases ts with
  | nil => cases k <;> rfl
  | cons t ts => rfl

namespace Rule

variable {α : Type} {p q : Rule α} {ts : List Lexeme}

/-- A local rule that reads a value before the end of the text reads it before the ends. -/
lemma Local.ok_ends {a : α} {rest : List Lexeme} (h : Local False p q) (hp : p ts = .ok a rest)
    (i : Nat) : ∃ us, ts = us ++ rest ∧ q (ts ++ ends i) = .ok a (rest ++ ends i) := by
  obtain ⟨us, rfl, hq⟩ := h.ok hp
  refine ⟨us, rfl, ?_⟩
  rw [List.append_assoc]
  exact hq _ (sameNext_ends rest i)

/-- A local rule that fails before the end of the text fails before the ends. -/
lemma Local.fail_ends {f : Failure} (h : Local False p q) (hp : p ts = .fail f) (i : Nat) :
    ∃ us, ts = us ++ f.rest ∧ q (ts ++ ends i) = .fail ⟨f.cause, f.rest ++ ends i⟩ := by
  obtain ⟨us, hts, hq⟩ := h.fail hp
  refine ⟨us, hts, ?_⟩
  rw [hts, List.append_assoc]
  exact hq _ (sameNext_ends f.rest i)

end Rule

namespace Grammar

open Rule

/-! ## Rules that halt -/

/-- With four units of its budget for each lexeme before the end of the text and `k` more, a rule
**halts**: it reads a value from at least `least` of these lexemes, or it fails. The ends, however
many there are, are left. -/
def Halts {α : Type} (least k : Nat) (rule : Nat → Rule α) : Prop :=
  ∀ ts, NoEnd ts → ∀ n, 4 * ts.length + k ≤ n → ∀ i, ∃ us rest, ts = us ++ rest ∧
    ((∃ a, rule n (ts ++ ends i) = .ok a (rest ++ ends i) ∧ least ≤ us.length) ∨
      ∃ cause, rule n (ts ++ ends i) = .fail ⟨cause, rest ++ ends i⟩)

/-- A rule halts if it looks at one lexeme only and has budget enough. -/
theorem Halts.of_within {α : Type} {least k : Nat} {rule : Nat → Rule α}
    (hwithin : ∀ len n, 4 * len + k ≤ n → Within len least (rule n))
    (hlocal : ∀ n, Local False (rule n) (rule n)) : Halts least k rule := by
  intro ts _ n hn i
  obtain ⟨hsettles, hleast⟩ := hwithin ts.length n hn ts (Nat.le_refl _)
  cases hreply : rule n ts with
  | ok a rest =>
    obtain ⟨us, hts, hread⟩ := (hlocal n).ok_ends hreply i
    have hlength := hleast a rest hreply
    rw [hts, List.length_append] at hlength
    exact ⟨us, rest, hts, .inl ⟨a, hread, by omega⟩⟩
  | fail f =>
    obtain ⟨us, hts, hfail⟩ := (hlocal n).fail_ends hreply i
    exact ⟨us, f.rest, hts, .inr ⟨f.cause, hfail⟩⟩
  | exhausted => exact absurd hreply hsettles

/-- A statement looks at one lexeme only. -/
lemma statementWith_local (E : Prop) {n m : Nat} (h : n ≤ m) :
    Local E (statementWith (expression n .lowest)) (statementWith (expression m .lowest)) :=
  statementWith_related (localAt_congruence E) ((locals E h).expression .lowest)

/-- **A program is read up to the first end of the text** and not beyond it. That end closes the
program, as a brace closes a block.

**Proof sketch.** Induction on the budget. Each statement is read from the lexemes before the ends,
and what is left are such lexemes. -/
theorem statements_ends {n : Nat} {ts : List Lexeme} (hts : NoEnd ts) (i : Nat) :
    (∀ program rest, statements n .eof ts = .ok program rest →
      statements n .eof (ts ++ ends (i + 1)) = .ok program (ends i)) ∧
    ∀ f, statements n .eof ts = .fail f →
      statements n .eof (ts ++ ends (i + 1)) = .fail ⟨f.cause, f.rest ++ ends (i + 1)⟩ := by
  induction n generalizing ts with
  | zero => exact ⟨nofun, nofun⟩
  | succ n ih =>
    cases ts with
    | nil =>
      refine ⟨?_, nofun⟩
      rintro _ _ ⟨⟩
      rfl
    | cons t ts =>
      have ht : t.kind ≠ .eof := hts t List.mem_cons_self
      have hstep (us : List Lexeme) : statements (n + 1) .eof (t :: us) =
          (statementWith (expression n .lowest) >>= fun s => statements n .eof >>= fun rest =>
            (Pure.pure (s :: rest) : Rule (List Stmt))) (t :: us) := by
        rw [statements, peek_bind, List.headD_cons, if_neg ht, if_neg ht]
      have hlocal := statementWith_local False (Nat.le_refl n)
      rw [List.cons_append, hstep, hstep, ← List.cons_append]
      constructor
      · intro program rest hread
        obtain ⟨s, ts₁, hs, hread⟩ := bind_eq_ok.mp hread
        obtain ⟨others, ts₂, hothers, hread⟩ := bind_eq_ok.mp hread
        cases hread
        obtain ⟨us, hsplit, hs'⟩ := hlocal.ok_ends hs (i + 1)
        rw [hsplit] at hts
        have hothers' := (ih hts.right).1 others rest hothers
        exact bind_eq_ok.mpr ⟨s, _, hs', bind_eq_ok.mpr ⟨others, _, hothers', rfl⟩⟩
      · intro f hfail
        rcases bind_eq_fail.mp hfail with hs | ⟨s, ts₁, hs, hothers⟩
        · obtain ⟨us, -, hs'⟩ := hlocal.fail_ends hs (i + 1)
          exact bind_eq_fail.mpr (.inl hs')
        · obtain ⟨us, hsplit, hs'⟩ := hlocal.ok_ends hs (i + 1)
          rw [hsplit] at hts
          refine bind_eq_fail.mpr (.inr ⟨s, _, hs', ?_⟩)
          rcases bind_eq_fail.mp hothers with hfail | ⟨_, _, _, hnever⟩
          · exact bind_eq_fail.mpr (.inl ((ih hts.right).2 f hfail))
          · cases hnever

/-- All rules that are read with a recursion or a loop halt. -/
structure AllHalt : Prop where
  /-- An expression, which takes at least one lexeme. -/
  expression (level : Level) : Halts 1 2 (expression · level)
  /-- A statement, which takes at least one lexeme. -/
  statement : Halts 1 2 fun n => statementWith (Grammar.expression n .lowest)
  /-- An operand. -/
  operand : Halts 1 1 operand
  /-- The operators, calls and indexings after an operand. -/
  continuation (level : Level) (left : Expr) : Halts 0 1 (continuation · level left)
  /-- A list of parameters. -/
  params : Halts 1 0 params
  /-- The entries of a hash. -/
  entries : Halts 0 3 entries
  /-- The members of a list. -/
  items (stop : TokenKind) (hstop : stop ≠ .eof) : Halts 0 3 (items · stop)
  /-- A list. -/
  list (stop : TokenKind) (hstop : stop ≠ .eof) : Halts 0 4 (list · stop)
  /-- The statements of a block. -/
  statements (stop : TokenKind) (hstop : stop ≠ .eof) : Halts 0 3 (statements · stop)

/-- **Every rule halts**, whatever comes before the end of the text. -/
theorem allHalt : AllHalt where
  expression level := .of_within (fun len n h => (settled n len).expression h level)
    fun n => (locals False (Nat.le_refl n)).expression level
  statement := .of_within (fun len n h => statementWith_within ((settled n len).expression h _))
    fun n => statementWith_local False (Nat.le_refl n)
  operand := .of_within (fun len n h => (settled n len).operand h)
    fun n => (locals False (Nat.le_refl n)).operand
  continuation level left := .of_within (fun len n h => (settled n len).continuation h level left)
    fun n => (locals False (Nat.le_refl n)).continuation level left
  params := .of_within (fun len n h => params_within (by omega))
    fun n => params_related (localAt_congruence False) (Nat.le_refl n)
  entries := .of_within (fun len n h => (settled n len).entries h)
    fun n => (locals False (Nat.le_refl n)).entries
  items stop hstop := .of_within (fun len n h => (settled n len).items h stop)
    fun n => (locals False (Nat.le_refl n)).items stop hstop
  list stop hstop := .of_within (fun len n h => (settled n len).list h stop)
    fun n => (locals False (Nat.le_refl n)).list stop hstop
  statements stop hstop := .of_within (fun len n h => (settled n len).statements h stop)
    fun n => (locals False (Nat.le_refl n)).statements stop hstop

end Grammar

/-! ## Texts -/

/-- **Reading comes to an end**, whatever the text is and whatever is still open where it ends.

The scanner answers the lexemes of a text and then ends. Before ends, every rule answers with a
budget that is linear in the number of lexemes before them, and leaves all of them. A text is read
as a program, up to the first end, or it is reported as an error. -/
theorem parse_halts :
    Grammar.AllHalt ∧ ∀ source,
      NoEnd (lexemes source) ∧
      (∀ k, answers source ((lexemes source).length + k) = lexemes source ++ ends k) ∧
      ∀ n, Grammar.budget (lexemes source) ≤ n → ∀ k,
        (∃ program, parse source = .ok program ∧
          Grammar.statements n .eof (lexemes source ++ ends (k + 1)) = .ok program (ends k)) ∨
        ∃ e us rest, parse source = .error e ∧ lexemes source = us ++ rest ∧
          Grammar.statements n .eof (lexemes source ++ ends (k + 1)) =
            .fail ⟨e.cause, rest ++ ends (k + 1)⟩ := by
  refine ⟨Grammar.allHalt, fun source => ⟨noEnd_lexemes source, answers_eq source, ?_⟩⟩
  intro n hn k
  have hlocal : Rule.Local True (Grammar.statements (Grammar.budget (lexemes source)) .eof)
      (Grammar.statements n .eof) := (Grammar.locals True hn).statements .eof fun _ => trivial
  have hagrees := hlocal.agrees (Grammar.statements_ne_exhausted (lexemes source) .eof)
  obtain ⟨hok, hfail⟩ := Grammar.statements_ends (n := n) (noEnd_lexemes source) k
  unfold parse
  obtain ⟨program, rest, hread, hparse⟩ | ⟨f, hread, hparse⟩ :=
    Program.ofLexemes_cases (lexemes source)
  · rw [hread] at hagrees
    exact .inl ⟨program, by rw [hparse], hok program rest hagrees⟩
  · obtain ⟨us, hsplit, -⟩ := hlocal.fail hread
    rw [hread] at hagrees
    exact .inr ⟨_, us, f.rest, by rw [hparse], hsplit, hfail f hagrees⟩

end QuoteLang
