import QuoteLang.Proofs.EndOfText

set_option relaxedAutoImplicit false
set_option autoImplicit false

/-!
# What has been read can be completed

Reading stops at the first lexeme that fits no continuation of what has been read: other lexemes in
its place would have made a program.

A rule that has read some lexemes and stopped, with a value or at an error, can be continued with
other lexemes so that it reads a value. For a sequence of rules there are two cases. If the second
rule has read something, it is continued. If it has read nothing, the first rule is continued, and
the second rule then starts with lexemes of its own. So each rule of the grammar needs lexemes that
it can start with: an expression is started with `true`, and all brackets are closed at once.

## Main definitions

* `Rule.Reaches` — a rule reads a value if its budget is large enough.
* `Rule.Startable` — there are lexemes from which a rule reads a value.
* `Rule.Continues` — whatever a rule has read, it can go on to read a value.
* `Rule.Completes` — a rule can be started and continued.
* `Grammar.Completable` — all rules of the grammar can.

## Main results

* `Rule.Continues.bind` — a sequence can be continued.
* `Grammar.completable` — all rules can be continued.
-/

namespace QuoteLang

/-- The first of written lexemes are written. -/
lemma AllWritten.left {ts us : List Lexeme} (h : AllWritten (ts ++ us)) : AllWritten ts :=
  fun t ht => h t (List.mem_append_left _ ht)

/-- Written lexemes may be put together. -/
lemma AllWritten.append {ts us : List Lexeme} (hts : AllWritten ts) (hus : AllWritten us) :
    AllWritten (ts ++ us) :=
  fun t ht => (List.mem_append.mp ht).elim (hts t) (hus t)

namespace Rule

variable {α β : Type} {n : Nat} {F G H : List Lexeme → Prop}

/-! ## Rules that can be started and continued -/

/-- Everything is fit to follow. -/
def Anything (_ : List Lexeme) : Prop := True

/-- A rule reads a value if its budget is large enough. -/
def Reaches (q : Nat → Rule α) (ts : List Lexeme) (a : α) (rest : List Lexeme) : Prop :=
  ∃ k, Grammar.Reads k q ts a rest

/-- A rule can be **started**: there are lexemes from which it reads a value if what follows them is
fit to follow (`F`), and they are fit to follow something else (`G`). -/
def Startable (F G : List Lexeme → Prop) (q : Nat → Rule α) : Prop :=
  ∃ us a, AllWritten us ∧ ∀ rest, F rest → G (us ++ rest) ∧ Reaches q (us ++ rest) a rest

/-- A rule can be **continued**: if it has read some lexemes and then stopped, there are others with
which it reads a value after them, if what follows is fit to follow (`F`). -/
structure Continues (n : Nat) (F : List Lexeme → Prop) (p : Rule α) (q : Nat → Rule α) : Prop where
  /-- The rule looks at one lexeme only, and does so with every larger budget. -/
  looks (m : Nat) (h : n ≤ m) : Local True p (q m)
  /-- The lexemes that it has read can be continued. -/
  continues (us rest : List Lexeme) (hne : us ≠ []) (h : (p (us ++ rest)).rest? = some rest) :
    ∃ vs a, AllWritten vs ∧ ∀ rest', F rest' → Reaches q (us ++ (vs ++ rest')) a rest'

/-- A rule that can be started and continued. -/
structure Completes (n : Nat) (F G : List Lexeme → Prop) (p : Rule α) (q : Nat → Rule α) : Prop
    extends Continues n F p q where
  /-- The rule can be started. -/
  starts : Startable F G q

/-- A rule that reads a value with every budget. -/
lemma Reaches.of_all {q : Nat → Rule α} {ts rest : List Lexeme} {a : α}
    (h : ∀ m, q m ts = .ok a rest) : Reaches q ts a rest :=
  ⟨0, fun m _ => h m⟩

/-- A rule that reads a value with one unit more than large budgets have. -/
lemma Reaches.of_succ {q : Nat → Rule α} {ts rest : List Lexeme} {a : α}
    (h : Reaches (fun m => q (m + 1)) ts a rest) : Reaches q ts a rest := by
  obtain ⟨k, hread⟩ := h
  exact ⟨k + 1, .of_succ hread⟩

/-- A sequence reads a value if its two rules do. -/
lemma Reaches.bind {q : Nat → Rule α} {g : Nat → α → Rule β} {ts ts₁ rest : List Lexeme} {a : α}
    {b : β} (h : Reaches q ts a ts₁) (hg : Reaches (fun m => g m a) ts₁ b rest) :
    Reaches (fun m => q m >>= g m) ts b rest := by
  obtain ⟨k, hq⟩ := h
  obtain ⟨k', hg⟩ := hg
  refine ⟨k + 4 * ts₁.length + k', fun m hm => ?_⟩
  have hfirst := hq m (by omega)
  have hsecond := hg m (by omega)
  exact (bind_of_ok hfirst).trans hsecond

/-- A sequence can be started if its two rules can. -/
lemma Startable.bind {q : Nat → Rule α} {g : Nat → α → Rule β} (h : Startable H G q)
    (hg : ∀ a, Startable F H fun m => g m a) : Startable F G fun m => q m >>= g m := by
  obtain ⟨us, a, hus, hq⟩ := h
  obtain ⟨vs, b, hvs, hg⟩ := hg a
  refine ⟨us ++ vs, b, hus.append hvs, fun rest hrest => ?_⟩
  obtain ⟨hfit, hsecond⟩ := hg rest hrest
  obtain ⟨hfit', hfirst⟩ := hq _ hfit
  rw [List.append_assoc]
  exact ⟨hfit', hfirst.bind hsecond⟩

namespace Continues

/-- A rule that takes one unit of its budget. -/
lemma of_succ {p : Rule α} {q : Nat → Rule α} (h : Continues n F p fun m => q (m + 1)) :
    Continues (n + 1) F p q where
  looks m hm := by
    obtain ⟨m, rfl⟩ : ∃ k, m = k + 1 := ⟨m - 1, by omega⟩
    exact h.looks m (by omega)
  continues us rest hne hrest := by
    obtain ⟨vs, a, hvs, hread⟩ := h.continues us rest hne hrest
    exact ⟨vs, a, hvs, fun rest' hrest' => (hread rest' hrest').of_succ⟩

/-- A rule that leaves all lexemes has nothing to continue. -/
lemma of_leaves {p : Rule α} {q : Nat → Rule α} (hlooks : ∀ m, n ≤ m → Local True p (q m))
    (h : ∀ ts rest, (p ts).rest? = some rest → rest = ts) : Continues n F p q where
  looks := hlooks
  continues us rest hne hrest := by
    have hall := h _ _ hrest
    exact absurd (List.self_eq_append_left.mp hall) hne

/-- The rule that reads nothing. -/
lemma pure (a : α) : Continues n F (Pure.pure a : Rule α) fun _ => Pure.pure a := by
  refine .of_leaves (fun _ _ _ => (localAt_congruence True).pure a) ?_
  rintro ts _ ⟨⟩
  rfl

/-- The rule that always fails. -/
lemma failHere (cause : TokenKind → ParseCause) :
    Continues n F (Rule.failHere cause : Rule α) fun _ => Rule.failHere cause := by
  refine .of_leaves (fun _ _ t => localAt_failHere True t cause) ?_
  rintro ts _ ⟨⟩
  rfl

/-- The rule without a budget. -/
lemma outOfBudget {q : Nat → Rule α} : Continues n F Rule.outOfBudget q := by
  refine .of_leaves (fun _ _ _ => (localAt_congruence True).outOfBudget) ?_
  rintro ts _ ⟨⟩

/-- A rule that reads one lexeme, whatever follows it, or leaves all lexemes. -/
lemma of_single {p : Rule α} (hlocal : Local True p p)
    (h : ∀ t ts, (∃ a, ∀ us, p (t :: us) = .ok a us) ∨ (p (t :: ts)).rest? = some (t :: ts)) :
    Continues n F p fun _ => p where
  looks _ _ := hlocal
  continues us rest hne hrest := by
    obtain ⟨t, us, rfl⟩ := List.exists_cons_of_ne_nil hne
    rw [List.cons_append] at hrest
    rcases h t (us ++ rest) with ⟨a, hread⟩ | hleaves
    · rw [hread] at hrest
      obtain rfl : us = [] := by simpa [Reply.rest?] using hrest
      exact ⟨[], a, nofun, fun rest' _ => .of_all fun _ => hread rest'⟩
    · rw [hleaves, ← List.cons_append] at hrest
      exact absurd (List.append_left_eq_self.mp (Option.some.inj hrest)) hne

/-- Reading a lexeme of one kind. -/
lemma expect (kind : TokenKind) :
    Continues n Anything (Rule.expect kind) fun _ => Rule.expect kind := by
  refine .of_single (fun _ => (localAt_congruence True).expect fun _ => trivial) fun t ts => ?_
  by_cases hkind : t.kind = kind
  · exact .inl ⟨t.literal, fun us => if_pos hkind⟩
  · have hne : ((t :: ts).headD .eof).kind ≠ kind := hkind
    exact .inr (by rw [expect_of_ne hne]; rfl)

/-- Reading an optional lexeme. -/
lemma skipOptional (kind : TokenKind) :
    Continues n Anything (Rule.skipOptional kind) fun _ => Rule.skipOptional kind := by
  refine .of_single (fun _ => (localAt_congruence True).skipOptional fun _ => trivial)
    fun t ts => ?_
  by_cases hkind : t.kind = kind
  · exact .inl ⟨(), fun us => if_pos hkind⟩
  · have hne : ((t :: ts).headD .eof).kind ≠ kind := hkind
    exact .inr (by rw [skipOptional_of_ne hne]; rfl)

/-- Looking at the next lexeme. -/
lemma look {f : Lexeme → Rule β} {g : Nat → Lexeme → Rule β}
    (h : ∀ t, Continues n F (f t) fun m => g m t) :
    Continues n F (peek >>= f) fun m => peek >>= g m where
  looks m hm t := (localAt_congruence True).look ((h t).looks m hm t)
  continues us rest hne hrest := by
    obtain ⟨t, us, rfl⟩ := List.exists_cons_of_ne_nil hne
    exact (h t).continues (t :: us) rest hne hrest

/-- **A sequence can be continued** if its first rule can, and if the second can be started and
continued after whatever the first has read.

**Proof sketch.** If the second rule has read something, it is continued: the first rule reads the
same, since the lexeme after what it reads is the same. Otherwise all that has been read has been
read by the first rule. It is continued, and the second is started. -/
theorem bind {p : Rule α} {q : Nat → Rule α} {f : α → Rule β} {g : Nat → α → Rule β}
    (h : Continues n H p q) (hf : ∀ a, Completes n F H (f a) fun m => g m a) :
    Continues n F (p >>= f) fun m => q m >>= g m where
  looks m hm t := (localAt_congruence True).bind (h.looks m hm t) fun a u => (hf a).looks m hm u
  continues us rest hne hrest := by
    have hfirst (hp : (p (us ++ rest)).rest? = some rest) : ∃ vs b, AllWritten vs ∧
        ∀ rest', F rest' → Reaches (fun m => q m >>= g m) (us ++ (vs ++ rest')) b rest' := by
      obtain ⟨vs, a, hvs, hq⟩ := h.continues us rest hne hp
      obtain ⟨ws, b, hws, hg⟩ := (hf a).starts
      refine ⟨vs ++ ws, b, hvs.append hws, fun rest' hrest' => ?_⟩
      obtain ⟨hfit, hsecond⟩ := hg rest' hrest'
      rw [List.append_assoc]
      exact (hq _ hfit).bind hsecond
    cases hp : p (us ++ rest) with
    | ok a ts₁ =>
      rw [bind_of_ok hp] at hrest
      obtain ⟨us₁, hsplit, -⟩ := (h.looks n (Nat.le_refl n)).ok hp
      obtain ⟨us₂, rfl, -⟩ := (hf a).looks n (Nat.le_refl n) _ ts₁ rest rfl hrest
      rw [← List.append_assoc] at hsplit
      obtain rfl := List.append_cancel_right hsplit
      cases us₂ with
      | nil => exact hfirst (by rw [hp]; rfl)
      | cons t us₂ =>
        obtain ⟨vs, b, hvs, hg⟩ := (hf a).continues (t :: us₂) rest (List.cons_ne_nil t us₂) hrest
        refine ⟨vs, b, hvs, fun rest' hrest' => ?_⟩
        have hq : Reaches q (us₁ ++ (t :: us₂ ++ (vs ++ rest'))) a (t :: us₂ ++ (vs ++ rest')) := by
          refine ⟨n, fun m hm => ?_⟩
          obtain ⟨us, heq, hread⟩ := (h.looks m (by omega)).ok hp
          obtain rfl := List.append_cancel_right (List.append_assoc .. ▸ heq)
          exact hread _ ⟨rfl, fun _ => ⟨nofun, nofun⟩⟩
        rw [List.append_assoc]
        exact hq.bind (hg rest' hrest')
    | fail e =>
      rw [bind_eq_fail.mpr (.inl hp)] at hrest
      exact hfirst (by rw [hp]; exact hrest)
    | exhausted =>
      rw [bind_of_exhausted hp] at hrest
      cases hrest

end Continues

namespace Completes

/-- A sequence of rules. -/
lemma bind {p : Rule α} {q : Nat → Rule α} {f : α → Rule β} {g : Nat → α → Rule β}
    (h : Completes n H G p q) (hf : ∀ a, Completes n F H (f a) fun m => g m a) :
    Completes n F G (p >>= f) fun m => q m >>= g m :=
  ⟨h.toContinues.bind hf, h.starts.bind fun a => (hf a).starts⟩

/-- The rule that reads nothing. -/
lemma pure (a : α) : Completes n F F (Pure.pure a : Rule α) fun _ => Pure.pure a :=
  ⟨.pure a, [], a, nofun, fun _ hrest => ⟨hrest, .of_all fun _ => rfl⟩⟩

/-- A rule may stand after a rule that anything may follow. -/
lemma anything {p : Rule α} {q : Nat → Rule α} (h : Completes n F G p q) :
    Completes n F Anything p q := by
  obtain ⟨us, a, hus, hread⟩ := h.starts
  exact ⟨h.toContinues, us, a, hus, fun rest hrest => ⟨trivial, (hread rest hrest).2⟩⟩

/-- Looking at the next lexeme, where it is known what to start with. -/
lemma look {f : Lexeme → Rule β} {g : Nat → Lexeme → Rule β}
    (h : ∀ t, Continues n F (f t) fun m => g m t) (hstart : Startable F G fun m => peek >>= g m) :
    Completes n F G (peek >>= f) fun m => peek >>= g m :=
  ⟨.look h, hstart⟩

/-- Reading a lexeme that leaves no choice and closes the expression before it. -/
lemma expectClosing (kind : TokenKind)
    (hkind : kind.text ≠ "" ∧ (Level.ofKind kind).rank = 0 ∧ kind ≠ .kwElse) :
    Completes n Anything Grammar.Closes (Rule.expect kind) fun _ => Rule.expect kind := by
  refine ⟨.expect kind, [kind.lexeme], kind.text, ?_,
    fun rest _ => ⟨Grammar.closes_lexeme kind rest hkind.2, .of_all fun _ => ?_⟩⟩
  · simpa [AllWritten] using TokenKind.isWritten_lexeme hkind.1
  · exact Grammar.expect_lexeme kind rest

/-- Reading a lexeme that leaves no choice. -/
lemma expect (kind : TokenKind) (hkind : kind.text ≠ "") :
    Completes n Anything Anything (Rule.expect kind) fun _ => Rule.expect kind := by
  refine ⟨.expect kind, [kind.lexeme], kind.text, ?_, fun rest _ => ⟨trivial, .of_all fun _ => ?_⟩⟩
  · simpa [AllWritten] using TokenKind.isWritten_lexeme hkind
  · exact Grammar.expect_lexeme kind rest

/-- Reading a name. -/
lemma expectName :
    Completes n Anything Anything (Rule.expect .ident) fun _ => Rule.expect .ident := by
  have hx : IsName "x" := ⟨by decide, List.all_eq_true.mp (by decide), by decide⟩
  refine ⟨.expect .ident, [nameLexeme "x"], "x", ?_, fun rest _ => ⟨trivial, .of_all fun _ => ?_⟩⟩
  · simpa [AllWritten] using isWritten_nameLexeme hx
  · exact Grammar.expect_nameLexeme "x" rest

/-- Reading an optional semicolon, which closes the expression before it. -/
lemma skipSemicolon : Completes n Anything Grammar.Closes (Rule.skipOptional .semicolon)
    fun _ => Rule.skipOptional .semicolon := by
  refine ⟨.skipOptional .semicolon, [TokenKind.semicolon.lexeme], (), ?_, fun rest _ =>
    ⟨Grammar.closes_lexeme .semicolon rest (by decide), .of_all fun _ => ?_⟩⟩
  · simpa [AllWritten] using TokenKind.isWritten_lexeme (by decide)
  · exact skipOptional_cons TokenKind.semicolon.lexeme rest

end Completes

end Rule

namespace Grammar

open Rule

variable {n : Nat} {F : List Lexeme → Prop}

/-! ## Lexemes that rules start with -/

/-- Lexemes that leave no choice are written. -/
lemma allWritten_lexemes {kinds : List TokenKind} (h : ∀ kind ∈ kinds, kind.text ≠ "") :
    AllWritten (kinds.map TokenKind.lexeme) := by
  intro t ht
  obtain ⟨kind, hkind, rfl⟩ := List.mem_map.mp ht
  exact TokenKind.isWritten_lexeme (h kind hkind)

/-- An operand is started with `true`. -/
lemma startable_operand : Startable F Anything operand := by
  refine ⟨[.kwTrue].map TokenKind.lexeme, .bool true, allWritten_lexemes (by decide), ?_⟩
  exact fun rest _ => ⟨trivial, 1, reads_bool true rest⟩

/-- Nothing has to be read after an operand if what follows closes the expression. -/
lemma startable_continuation (level : Level) (left : Expr) :
    Startable Closes Closes fun m => continuation m level left := by
  refine ⟨[], left, nofun, fun rest hrest => ⟨hrest, 1, reads_stop left ?_⟩⟩
  exact hrest.nextRank_eq ▸ Nat.zero_le _

/-- The lexeme `true` is read as an expression if what follows closes it. -/
lemma reads_true (level : Level) {rest : List Lexeme} (h : Closes rest) :
    Reads 2 (fun m => expression m level) (TokenKind.kwTrue.lexeme :: rest) (.bool true) rest := by
  have hstop : nextRank rest ≤ level.rank := h.nextRank_eq ▸ Nat.zero_le _
  exact reads_expression (reads_bool true rest) (by simp) (reads_stop _ hstop)

/-- An expression is started with `true`. -/
lemma startable_expression (level : Level) :
    Startable Closes Anything fun m => expression m level := by
  refine ⟨[.kwTrue].map TokenKind.lexeme, .bool true, allWritten_lexemes (by decide), ?_⟩
  exact fun rest hrest => ⟨trivial, 2, reads_true level hrest⟩

/-- The kinds of the tokens that close a list. -/
def ClosesList (stop : TokenKind) : Prop :=
  stop = .rparen ∨ stop = .rbracket

/-- What closes a list has a text. -/
lemma ClosesList.text_ne {stop : TokenKind} (h : ClosesList stop) : stop.text ≠ "" := by
  rcases h with rfl | rfl <;> decide

/-- What closes a list closes an expression. -/
lemma ClosesList.closes {stop : TokenKind} (h : ClosesList stop) (rest : List Lexeme) :
    Closes (stop.lexeme :: rest) := by
  rcases h with rfl | rfl <;> exact closes_lexeme _ rest (by decide)

/-- A list is closed at once. -/
lemma startable_list {stop : TokenKind} (hstop : ClosesList stop) :
    Startable F Anything fun m => list m stop := by
  refine ⟨[stop].map TokenKind.lexeme, [], allWritten_lexemes ?_, ?_⟩
  · simpa using hstop.text_ne
  · exact fun rest _ => ⟨trivial, 4, reads_list_nil stop rest⟩

/-- The members of a list are started with `true`. -/
lemma startable_items {stop : TokenKind} (hstop : ClosesList stop) :
    Startable F Anything fun m => items m stop := by
  refine ⟨[.kwTrue, stop].map TokenKind.lexeme, [.bool true], allWritten_lexemes ?_, ?_⟩
  · simpa [TokenKind.text] using hstop.text_ne
  · refine fun rest _ => ⟨trivial, 3, reads_items_last ?_ (reads_true _ (hstop.closes rest))⟩
    rcases hstop with rfl | rfl <;> decide

/-- The entries of a hash are closed at once. -/
lemma startable_entries : Startable F Anything entries := by
  refine ⟨[.rbrace].map TokenKind.lexeme, [], allWritten_lexemes (by decide), ?_⟩
  exact fun rest _ => ⟨trivial, 3, reads_entries_nil rest⟩

/-- Names are started with one name. -/
lemma startable_names : Startable F Anything names := by
  refine ⟨[nameLexeme "x", TokenKind.rparen.lexeme], ["x"], ?_, ?_⟩
  · have hx : (nameLexeme "x").IsWritten :=
      ⟨by decide, List.all_eq_true.mp (by decide), by decide⟩
    simpa [AllWritten] using ⟨hx, TokenKind.isWritten_lexeme (by decide)⟩
  · exact fun rest _ => ⟨trivial, 1, reads_names (List.cons_ne_nil "x" []) rest⟩

/-- Parameters are closed at once. -/
lemma startable_params : Startable F Anything params := by
  refine ⟨[.lparen, .rparen].map TokenKind.lexeme, [], allWritten_lexemes (by decide), ?_⟩
  exact fun rest _ => ⟨trivial, 1, reads_params [] rest⟩

/-- What may follow statements: anything after a brace, and nothing after a program. -/
def Ends (stop : TokenKind) (F : List Lexeme → Prop) : Prop :=
  stop = .rbrace ∨ stop = .eof ∧ ∀ rest, F rest → rest = []

/-- Statements are closed at once. -/
lemma startable_statements {stop : TokenKind} (hstop : Ends stop F) :
    Startable F Anything fun m => statements m stop := by
  rcases hstop with rfl | ⟨rfl, hnil⟩
  · refine ⟨[.rbrace].map TokenKind.lexeme, [], allWritten_lexemes (by decide), ?_⟩
    exact fun rest _ => ⟨trivial, 3, reads_statements_nil rfl (skipOptional_cons _ rest)⟩
  · refine ⟨[], [], nofun, fun rest hrest => ⟨trivial, 3, ?_⟩⟩
    rw [hnil rest hrest]
    exact reads_statements_nil rfl rfl

/-! ## Rules without a recursion into expressions -/

/-- An integer literal. -/
lemma integer_continues : Continues n F integer fun _ => integer := by
  refine .look fun t => ?_
  split
  · exact (Continues.expect _).bind fun _ => .anything (.pure _)
  · exact .failHere _

/-- A list of names. -/
lemma names_completes (n : Nat) : Completes n Anything Anything (names n) names := by
  refine ⟨?_, startable_names⟩
  induction n with
  | zero => exact .outOfBudget
  | succ n ih =>
    have hnames : Completes n Anything Anything (names n) names := ⟨ih, startable_names⟩
    refine .of_succ ((Continues.expect _).bind fun name => .look (fun t => ?_) ?_)
    · split
      · exact (Continues.expect _).bind fun _ => hnames.bind fun _ => .pure _
      · exact (Continues.expect _).bind fun _ => .pure _
    · refine ⟨[.rparen].map TokenKind.lexeme, [name], allWritten_lexemes (by decide), ?_⟩
      exact fun rest _ => ⟨trivial, .of_all fun _ => rfl⟩

/-- A list of parameters. -/
lemma params_completes (n : Nat) : Completes n Anything Anything (params n) params := by
  refine ⟨(Continues.expect _).bind fun _ => .look (fun t => ?_) ?_, startable_params⟩
  · split
    · exact (Continues.expect _).bind fun _ => .pure _
    · exact (names_completes n).toContinues
  · refine ⟨[.rparen].map TokenKind.lexeme, [], allWritten_lexemes (by decide), ?_⟩
    exact fun rest _ => ⟨trivial, .of_all fun _ => rfl⟩

/-- A statement without its semicolon, if its expressions can be continued. -/
lemma unterminated_completes
    (h : Completes n Closes Anything (expression n .lowest) fun m => expression m .lowest) :
    Completes n Closes Anything (unterminated (expression n .lowest))
      fun m => unterminated (expression m .lowest) := by
  refine .look (fun t => ?_) ?_
  · split
    · refine (Continues.expect _).bind fun _ => Completes.expectName.bind fun name => ?_
      exact (Completes.expect _ (by decide)).bind fun _ => h.bind fun _ => .pure _
    · refine (Continues.expect _).bind fun _ => .look (fun t => ?_) ?_
      · split
        · exact .pure _
        · exact h.toContinues.bind fun _ => .pure _
      · refine ⟨[.kwTrue].map TokenKind.lexeme, .ret (some (.bool true)),
          allWritten_lexemes (by decide), fun rest hrest => ⟨trivial, 2, fun m hm => ?_⟩⟩
        exact bind_of_ok (reads_true .lowest hrest m hm)
    · exact h.toContinues.bind fun _ => .pure _
  · refine ⟨[.kwTrue].map TokenKind.lexeme, .expr (.bool true), allWritten_lexemes (by decide),
      fun rest hrest => ⟨trivial, 2, fun m hm => ?_⟩⟩
    exact bind_of_ok (reads_true .lowest hrest m hm)

/-- A statement, if its expressions can be continued. -/
lemma statementWith_completes
    (h : Completes n Closes Anything (expression n .lowest) fun m => expression m .lowest) :
    Completes n Anything Anything (statementWith (expression n .lowest))
      fun m => statementWith (expression m .lowest) := by
  simp only [statementWith_eq]
  refine (unterminated_completes h).bind fun s => ?_
  exact Completes.skipSemicolon.bind fun _ => .pure _

/-- All rules can be started and continued, from a budget of `n` units on. -/
structure Completable (n : Nat) : Prop where
  /-- An operand. -/
  operand : Completes n Closes Anything (operand n) operand
  /-- What follows an operand. -/
  continuation (level : Level) (left : Expr) :
    Completes n Closes Closes (continuation n level left) fun m => continuation m level left
  /-- An expression. -/
  expression (level : Level) :
    Completes n Closes Anything (expression n level) fun m => expression m level
  /-- The members of a list. -/
  items {stop : TokenKind} (hstop : ClosesList stop) :
    Completes n Anything Anything (items n stop) fun m => items m stop
  /-- A list. -/
  list {stop : TokenKind} (hstop : ClosesList stop) :
    Completes n Anything Anything (list n stop) fun m => list m stop
  /-- The entries of a hash. -/
  entries : Completes n Anything Anything (entries n) entries
  /-- Statements. -/
  statements {stop : TokenKind} {F : List Lexeme → Prop} (hstop : Ends stop F) :
    Completes n F Anything (statements n stop) fun m => statements m stop

/-- A rule that reads one lexeme and makes an expression of it. -/
lemma literal_continues {kind : TokenKind} {f : String → Expr} :
    Continues n F (expect kind >>= fun s => (Pure.pure (f s) : Rule Expr))
      fun _ => expect kind >>= fun s => Pure.pure (f s) :=
  (Continues.expect _).bind fun _ => .anything (.pure _)

/-- A unary operation. -/
lemma unary_continues (ih : Completable n) {kind : TokenKind} {op : UnaryOp} :
    Continues n Closes
      (expect kind >>= fun _ => expression n .unary >>= fun e =>
        (Pure.pure (.unary op e) : Rule Expr))
      fun m => expect kind >>= fun _ => expression m .unary >>= fun e =>
        Pure.pure (.unary op e) :=
  (Continues.expect _).bind fun _ => (ih.expression _).bind fun _ => .pure _

/-- The statements of a block. -/
lemma block_completes (ih : Completable n) :
    Completes n Anything Anything (statements n .rbrace) fun m => statements m .rbrace :=
  ih.statements (.inl rfl)

/-- The literal of a function or of a macro. -/
lemma body_continues (ih : Completable n) {kind : TokenKind}
    {f : List String → List Stmt → Expr} :
    Continues n Closes
      (expect kind >>= fun _ => params n >>= fun names => expect .lbrace >>= fun _ =>
        statements n .rbrace >>= fun body => (Pure.pure (f names body) : Rule Expr))
      fun m => expect kind >>= fun _ => params m >>= fun names => expect .lbrace >>= fun _ =>
        statements m .rbrace >>= fun body => Pure.pure (f names body) := by
  refine (Continues.expect _).bind fun _ => (params_completes n).bind fun names => ?_
  refine (Completes.expect _ (by decide)).bind fun _ => (block_completes ih).bind fun _ => ?_
  exact .anything (.pure _)

/-- An operand. -/
lemma operand_continues (ih : Completable n) :
    Continues (n + 1) Closes (operand (n + 1)) operand := by
  refine .of_succ (.look fun t => ?_)
  split
  · exact literal_continues
  · exact integer_continues
  · exact literal_continues
  · exact literal_continues
  · exact literal_continues
  · exact unary_continues ih
  · exact unary_continues ih
  · refine (Continues.expect _).bind fun _ => (ih.expression _).bind fun e => ?_
    exact (Completes.expectClosing _ (by decide)).bind fun _ => .anything (.pure _)
  · refine (Continues.expect _).bind fun _ => (Completes.expect _ (by decide)).bind fun _ => ?_
    refine (ih.expression _).bind fun test => ?_
    refine (Completes.expectClosing _ (by decide)).bind fun _ => ?_
    refine (Completes.expect _ (by decide)).bind fun _ => (block_completes ih).bind fun yes => ?_
    refine .look (fun t => ?_) ?_
    · split
      · refine (Continues.expect _).bind fun _ => (Completes.expect _ (by decide)).bind fun _ => ?_
        exact (block_completes ih).bind fun _ => .anything (.pure _)
      · exact .pure _
    -- Without `else` the conditional is complete if what follows closes it.
    · refine ⟨[], .cond test yes none, nofun, fun rest hrest => ⟨trivial, .of_all fun _ => ?_⟩⟩
      rw [List.nil_append, peek_bind, if_neg hrest.ne_else]
      rfl
  · exact body_continues ih
  · exact body_continues ih
  · exact (Continues.expect _).bind fun _ => (ih.list (.inr rfl)).bind fun _ => .anything (.pure _)
  · exact (Continues.expect _).bind fun _ => ih.entries.bind fun _ => .anything (.pure _)
  · exact .failHere _

/-- What follows an operand. -/
lemma continuation_continues (ih : Completable n) (level : Level) (left : Expr) :
    Continues (n + 1) Closes (continuation (n + 1) level left)
      fun m => continuation m level left := by
  refine .of_succ (.look fun t => ?_)
  split
  · split
    · refine (Continues.expect _).bind fun _ => (ih.list (.inl rfl)).bind fun args => ?_
      exact (ih.continuation _ _).anything
    · refine (Continues.expect _).bind fun _ => (ih.expression _).bind fun position => ?_
      exact (Completes.expectClosing _ (by decide)).bind fun _ => (ih.continuation _ _).anything
    · split
      · refine (Continues.expect _).bind fun _ => (ih.expression _).bind fun right => ?_
        exact ih.continuation _ _
      · exact .pure _
  · exact .pure _

/-- An expression. -/
lemma expression_continues (ih : Completable n) (level : Level) :
    Continues (n + 1) Closes (expression (n + 1) level) fun m => expression m level :=
  .of_succ (ih.operand.toContinues.bind fun left => ih.continuation level left)

/-- The members of a list. -/
lemma items_continues (ih : Completable n) {stop : TokenKind} (hstop : ClosesList stop) :
    Continues (n + 1) Anything (items (n + 1) stop) fun m => items m stop := by
  refine .of_succ ((ih.expression _).toContinues.bind fun e => .look (fun t => ?_) ?_)
  · split
    · exact (Continues.expect _).bind fun _ => (ih.items hstop).bind fun _ => .pure _
    · exact (Continues.expect _).bind fun _ => .pure _
  · refine ⟨[stop].map TokenKind.lexeme, [e], allWritten_lexemes (by simpa using hstop.text_ne),
      fun rest _ => ⟨hstop.closes rest, .of_all fun _ => ?_⟩⟩
    rcases hstop with rfl | rfl <;> rfl

/-- A list. -/
lemma list_continues (ih : Completable n) {stop : TokenKind} (hstop : ClosesList stop) :
    Continues (n + 1) Anything (list (n + 1) stop) fun m => list m stop := by
  refine .of_succ (.look fun t => ?_)
  split
  · exact (Continues.expect _).bind fun _ => .pure _
  · exact (ih.items hstop).toContinues

/-- The entries of a hash. -/
lemma entries_continues (ih : Completable n) :
    Continues (n + 1) Anything (entries (n + 1)) entries := by
  refine .of_succ (.look fun t => ?_)
  split
  · exact (Continues.expect _).bind fun _ => .pure _
  · refine (ih.expression _).toContinues.bind fun key => ?_
    refine (Completes.expectClosing _ (by decide)).bind fun _ => ?_
    refine (ih.expression _).bind fun value => .look (fun next => ?_) ?_
    · split
      · exact (Continues.skipOptional _).bind fun _ => ih.entries.bind fun _ => .pure _
      · exact .failHere _
    · refine ⟨[TokenKind.rbrace].map TokenKind.lexeme, [(key, value)],
        allWritten_lexemes (by decide),
        fun rest _ => ⟨closes_lexeme _ rest (by decide), 3, fun m hm => ?_⟩⟩
      exact bind_of_ok (reads_entries_nil rest m hm)

/-- Statements. -/
lemma statements_continues (ih : Completable n) {stop : TokenKind} (hstop : Ends stop F) :
    Continues (n + 1) F (statements (n + 1) stop) fun m => statements m stop := by
  refine .of_succ (.look fun t => ?_)
  split
  · exact (Continues.skipOptional _).bind fun _ => .anything (.pure _)
  split
  · exact .failHere _
  · refine (statementWith_completes (ih.expression _)).toContinues.bind fun s => ?_
    exact (ih.statements hstop).bind fun _ => .pure _

/-- **All rules can be continued.**

**Proof sketch.** Induction on the budget. Every rule is composed of smaller ones, and where it
looks at the next lexeme to choose between them, one of them can be started. -/
theorem completable (n : Nat) : Completable n := by
  induction n with
  | zero =>
    exact {
      operand := ⟨.outOfBudget, startable_operand⟩
      continuation := fun level left => ⟨.outOfBudget, startable_continuation level left⟩
      expression := fun level => ⟨.outOfBudget, startable_expression level⟩
      items := fun hstop => ⟨.outOfBudget, startable_items hstop⟩
      list := fun hstop => ⟨.outOfBudget, startable_list hstop⟩
      entries := ⟨.outOfBudget, startable_entries⟩
      statements := fun hstop => ⟨.outOfBudget, startable_statements hstop⟩ }
  | succ n ih =>
    exact {
      operand := ⟨operand_continues ih, startable_operand⟩
      continuation := fun level left =>
        ⟨continuation_continues ih level left, startable_continuation level left⟩
      expression := fun level => ⟨expression_continues ih level, startable_expression level⟩
      items := fun hstop => ⟨items_continues ih hstop, startable_items hstop⟩
      list := fun hstop => ⟨list_continues ih hstop, startable_list hstop⟩
      entries := ⟨entries_continues ih, startable_entries⟩
      statements := fun hstop => ⟨statements_continues ih hstop, startable_statements hstop⟩ }

end Grammar

end QuoteLang
