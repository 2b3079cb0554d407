import QuoteLang.Token
import QuoteLang.ParseError

set_option relaxedAutoImplicit false
set_option autoImplicit false

/-!
# Grammar rules

A rule reads from the front of a list of lexemes. The empty list stands for the end of the text.

## Main definitions

* `Failure` — a cause together with the lexemes from the offending one on.
* `Reply` — what a rule answers: a value with the lexemes left, a failure, or that the budget for
  its recursion is used up.
* `Rule` — rules, which are composed in sequence by `do`.
* `Rule.peek`, `Rule.expect`, `Rule.skipOptional` — the elementary rules.
* `Rule.Within` — a rule settles every list up to a length, and reads at least so many lexemes.

## Main results

* `Rule.bind_eq_ok`, `Rule.bind_eq_fail` — what a sequence of two rules answers.
* `Rule.expect_eq_ok`, `Rule.skipOptional_cons`, `Rule.skipOptional_of_ne` — what the elementary
  rules read.
* `Rule.Within.reads`, `Rule.Within.looks` — a sequence settles every short enough list if its two
  rules do.
-/

namespace QuoteLang

/-! ## Replies -/

/-- A failure to read on: its cause, and the lexemes from the offending one on. -/
structure Failure where
  /-- Why reading failed. -/
  cause : ParseCause
  /-- The lexemes not yet read. The first of them is the offending one, or there are none and the
  end of the text is. -/
  rest : List Lexeme
deriving DecidableEq

/-- The lexeme that a failure is about. -/
def Failure.lexeme (f : Failure) : Lexeme :=
  f.rest.headD .eof

/-- What a rule answers. -/
inductive Reply (α : Type)
  /-- It has read a value; the rest is left. -/
  | ok (value : α) (rest : List Lexeme)
  /-- The lexemes do not fit the rule. -/
  | fail (failure : Failure)
  /-- The budget for the recursion of the rule was too small. -/
  | exhausted

/-- A rule of the grammar. -/
def Rule (α : Type) : Type := List Lexeme → Reply α

namespace Rule

variable {α β : Type}

/-- The rule that reads nothing and answers `a`. -/
def pure (a : α) : Rule α := fun ts => .ok a ts

/-- One rule after the other, where the second may depend on what the first has read. -/
def bind (p : Rule α) (f : α → Rule β) : Rule β := fun ts =>
  match p ts with
  | .ok a rest => f a rest
  | .fail e => .fail e
  | .exhausted => .exhausted

/-- Rules are composed in sequence. -/
instance : Monad Rule where
  pure := Rule.pure
  bind := Rule.bind

/-- Composition in sequence obeys the laws of monads. -/
instance : LawfulMonad Rule :=
  LawfulMonad.mk' Rule
    (fun p => by
      funext ts
      change Rule.bind p (fun a => Rule.pure a) ts = p ts
      unfold Rule.bind Rule.pure
      cases p ts <;> rfl)
    (fun a f => rfl)
    (fun p f g => by
      funext ts
      change Rule.bind (Rule.bind p f) g ts = Rule.bind p (fun a => Rule.bind (f a) g) ts
      unfold Rule.bind
      cases p ts <;> rfl)

/-- A sequence reads a value exactly if the first rule does, and the second from what is left. -/
theorem bind_eq_ok {p : Rule α} {f : α → Rule β} {ts rest : List Lexeme} {b : β} :
    (p >>= f) ts = .ok b rest ↔ ∃ a ts₁, p ts = .ok a ts₁ ∧ f a ts₁ = .ok b rest := by
  change Rule.bind p f ts = _ ↔ _
  unfold Rule.bind
  cases h : p ts with
  | ok a ts₁ =>
    constructor
    · intro hf
      exact ⟨a, ts₁, rfl, hf⟩
    · rintro ⟨_, _, ⟨⟩, hf⟩
      exact hf
  | fail e' => simp
  | exhausted => simp

/-- A sequence fails exactly if the first rule does, or the second on what the first has left. -/
theorem bind_eq_fail {p : Rule α} {f : α → Rule β} {ts : List Lexeme} {e : Failure} :
    (p >>= f) ts = .fail e ↔
      p ts = .fail e ∨ ∃ a ts₁, p ts = .ok a ts₁ ∧ f a ts₁ = .fail e := by
  change Rule.bind p f ts = _ ↔ _
  unfold Rule.bind
  cases h : p ts with
  | ok a ts₁ =>
    constructor
    · intro hf
      exact Or.inr ⟨a, ts₁, rfl, hf⟩
    · rintro (he | ⟨_, _, ⟨⟩, hf⟩)
      · cases he
      · exact hf
  | fail e' => simp
  | exhausted => simp

/-! ## Elementary rules -/

/-- The rule without a budget for its recursion. -/
def outOfBudget : Rule α := fun _ => .exhausted

/-- The rule that always fails, at the next lexeme and with a cause that depends on its kind. -/
def failHere (cause : TokenKind → ParseCause) : Rule α := fun ts =>
  .fail ⟨cause (ts.headD .eof).kind, ts⟩

/-- The next lexeme, which is not read. -/
def peek : Rule Lexeme := fun ts => .ok (ts.headD .eof) ts

/-- Reads a lexeme of one kind, and fails at any other. The answer is its literal. -/
def expect (kind : TokenKind) : Rule String := fun ts =>
  match ts with
  | [] => .fail ⟨.unexpectedToken [kind] .eof, []⟩
  | t :: rest => if t.kind = kind then .ok t.literal rest
    else .fail ⟨.unexpectedToken [kind] t.kind, t :: rest⟩

/-- Reads a lexeme of one kind if it comes next, and nothing otherwise. -/
def skipOptional (kind : TokenKind) : Rule Unit := fun ts =>
  match ts with
  | [] => .ok () []
  | t :: rest => if t.kind = kind then .ok () rest else .ok () (t :: rest)

/-- A rule that has read a value goes on with what it has left. -/
theorem bind_of_ok {p : Rule α} {f : α → Rule β} {ts rest : List Lexeme} {a : α}
    (h : p ts = .ok a rest) : (p >>= f) ts = f a rest := by
  change Rule.bind p f ts = _
  rw [Rule.bind, h]

/-- Looking at the next lexeme leaves every lexeme to what follows. -/
theorem peek_bind (f : Lexeme → Rule β) (ts : List Lexeme) :
    (peek >>= f) ts = f (ts.headD .eof) ts := rfl

/-- A lexeme of one kind is read exactly if it comes next. -/
theorem expect_eq_ok {kind : TokenKind} {ts rest : List Lexeme} {literal : String} :
    expect kind ts = .ok literal rest ↔ ts = ⟨kind, literal⟩ :: rest := by
  cases ts with
  | nil => simp [expect]
  | cons t us =>
    obtain ⟨k, l⟩ := t
    by_cases hk : k = kind
    · simp [expect, hk]
    · simp [expect, hk]

/-- An optional lexeme that comes next is read. -/
theorem skipOptional_cons (t : Lexeme) (ts : List Lexeme) :
    skipOptional t.kind (t :: ts) = .ok () ts := by
  simp [skipOptional]

/-- An optional lexeme that does not come next is left out. -/
theorem skipOptional_of_ne {kind : TokenKind} {ts : List Lexeme}
    (h : (ts.headD .eof).kind ≠ kind) : skipOptional kind ts = .ok () ts := by
  cases ts with
  | nil => rfl
  | cons t us =>
    have ht : t.kind ≠ kind := h
    simp [skipOptional, ht]

/-! ## Budgets -/

/-- The rule settles every list of at most `len` lexemes: it does not run out of its budget, and
where it reads a value it reads at least `least` lexemes. -/
def Within (len least : Nat) (p : Rule α) : Prop :=
  ∀ ts : List Lexeme, ts.length ≤ len →
    p ts ≠ .exhausted ∧ ∀ a rest, p ts = .ok a rest → rest.length + least ≤ ts.length

namespace Within

/-- A rule that settles lists up to one length settles shorter ones, and reads as much. -/
theorem mono {len len' least least' : Nat} {p : Rule α} (h : Within len least p)
    (hlen : len' ≤ len) (hleast : least' ≤ least) : Within len' least' p := by
  intro ts hts
  refine ⟨(h ts (by omega)).1, fun a rest hr => ?_⟩
  have := (h ts (by omega)).2 a rest hr
  omega

/-- A sequence: the second rule has to settle the lists that are as much shorter as the first rule
reads at least, and that only if there is as much to read. -/
theorem bind {len read least : Nat} {p : Rule α} {f : α → Rule β} (hp : Within len read p)
    (hf : read ≤ len → ∀ a, Within (len - read) (least - read) (f a)) :
    Within len least (p >>= f) := by
  intro ts hts
  have hpt := hp ts hts
  change Rule.bind p f ts ≠ .exhausted ∧ ∀ a rest, Rule.bind p f ts = .ok a rest → _
  unfold Rule.bind
  cases hr : p ts with
  | ok a rest =>
    have hlen := hpt.2 a rest hr
    have hft := hf (by omega) a rest (by omega)
    refine ⟨hft.1, fun b rest' hb => ?_⟩
    have := hft.2 b rest' hb
    omega
  | fail e => simp
  | exhausted => exact absurd hr hpt.1

/-- A sequence whose first rule reads a lexeme: the second rule has to settle only shorter lists,
and that only if there is a lexeme to read. -/
theorem reads {len least : Nat} {p : Rule α} {f : α → Rule β} (hp : Within len 1 p)
    (hf : 0 < len → ∀ a, Within (len - 1) 0 (f a)) (hleast : least ≤ 1) :
    Within len least (p >>= f) :=
  hp.bind fun hlen a => (hf hlen a).mono (Nat.le_refl _) (by omega)

/-- A sequence whose first rule may read nothing: the second rule has to settle the same lists. -/
theorem looks {len least : Nat} {p : Rule α} {f : α → Rule β} (hp : Within len 0 p)
    (hf : ∀ a, Within len least (f a)) : Within len least (p >>= f) :=
  hp.bind fun _ a => hf a

/-- The rule that reads nothing settles every list. -/
theorem pure {len : Nat} (a : α) : Within len 0 (Pure.pure a : Rule α) := by
  intro ts _
  change Rule.pure a ts ≠ .exhausted ∧ ∀ b rest, Rule.pure a ts = .ok b rest → _
  simp only [Rule.pure, ne_eq, reduceCtorEq, not_false_eq_true, Reply.ok.injEq, true_and]
  rintro b rest ⟨_, rfl⟩
  omega

/-- The rule that always fails settles every list, and reads as much as one likes. -/
theorem failHere {len least : Nat} (cause : TokenKind → ParseCause) :
    Within len least (failHere cause : Rule α) := by
  intro ts _
  simp [Rule.failHere]

/-- Looking at the next lexeme settles every list. -/
theorem peek {len : Nat} : Within len 0 peek := by
  intro ts _
  simp only [Rule.peek, ne_eq, reduceCtorEq, not_false_eq_true, Reply.ok.injEq, true_and]
  rintro a rest ⟨_, rfl⟩
  omega

/-- Reading a lexeme of one kind reads a lexeme. -/
theorem expect {len : Nat} (kind : TokenKind) : Within len 1 (expect kind) := by
  intro ts _
  cases ts with
  | nil => simp [Rule.expect]
  | cons t rest =>
    by_cases h : t.kind = kind
    · simp only [Rule.expect, h, if_true, ne_eq, reduceCtorEq, not_false_eq_true,
        Reply.ok.injEq, true_and]
      rintro a rest' ⟨_, rfl⟩
      simp
    · simp [Rule.expect, h]

/-- Reading an optional lexeme settles every list. -/
theorem skipOptional {len : Nat} (kind : TokenKind) : Within len 0 (skipOptional kind) := by
  intro ts _
  cases ts with
  | nil => simp [Rule.skipOptional]
  | cons t rest =>
    by_cases h : t.kind = kind
    · simp only [Rule.skipOptional, h, if_true, ne_eq, reduceCtorEq, not_false_eq_true,
        Reply.ok.injEq, true_and]
      rintro a rest' ⟨_, rfl⟩
      simp
    · simp only [Rule.skipOptional, h, if_false, ne_eq, reduceCtorEq, not_false_eq_true,
        Reply.ok.injEq, true_and]
      rintro a rest' ⟨_, rfl⟩
      simp

end Within

end Rule

end QuoteLang
