import Mathlib.Tactic.Lemma
import QuoteLang.Parse

set_option relaxedAutoImplicit false
set_option autoImplicit false

/-!
# Layouts

A text lays out a list of lexemes if it consists of what the lexemes are written with, in order,
and of blanks. Blanks may stand anywhere between two lexemes. They have to stand where the second
lexeme would otherwise be read as a part of the first, as between two words.

## Main definitions

* `TokenKind.text`, `TokenKind.lexeme` — how the tokens are written that have one spelling only.
* `Lexeme.IsWritten` — the lexemes that can be met in a text.
* `Lexeme.chars` — the characters that a lexeme is written with.
* `Layout` — a text lays out a list of lexemes.

## Main results

* `Lexeme.isWritten_of_mem_lexemes` — every lexeme of a text is written.
* `Layout.lexemes_eq` — the lexemes of a layout are those that it lays out.
* `layout_spaced` — every list of lexemes can be laid out.
-/

namespace QuoteLang

/-! ## Written lexemes -/

/-- How a token is written whose kind leaves no choice: an operator, a bracket, a separator or a
reserved word. The text is empty for the other kinds. -/
def TokenKind.text : TokenKind → String
  | illegal | eof | ident | int | string => ""
  | assign => "="
  | plus => "+"
  | minus => "-"
  | bang => "!"
  | asterisk => "*"
  | slash => "/"
  | lt => "<"
  | gt => ">"
  | eq => "=="
  | notEq => "!="
  | comma => ","
  | semicolon => ";"
  | colon => ":"
  | lparen => "("
  | rparen => ")"
  | lbrace => "\x7b"
  | rbrace => "\x7d"
  | lbracket => "["
  | rbracket => "]"
  | kwFn => "fn"
  | kwLet => "let"
  | kwIf => "if"
  | kwElse => "else"
  | kwTrue => "true"
  | kwFalse => "false"
  | kwReturn => "return"
  | kwMacro => "macro"

/-- The lexeme of a kind that leaves no choice. -/
def TokenKind.lexeme (kind : TokenKind) : Lexeme := ⟨kind, kind.text⟩

/-- A name is a word over the letters and the underscore that is not reserved. -/
def IsName (name : String) : Prop :=
  name.toList ≠ [] ∧ (∀ c ∈ name.toList, isWordChar c = true) ∧ TokenKind.ofWord name = .ident

/-- A run of digits is not empty. -/
def IsDigits (text : String) : Prop :=
  text.toList ≠ [] ∧ ∀ c ∈ text.toList, c.isDigit = true

/-- A string literal has no quote between its quotes. -/
def IsUnquoted (text : String) : Prop :=
  ∀ c ∈ text.toList, isQuote c = false

/-- A character that is no blank and starts no token. -/
def IsStray (c : Char) : Prop :=
  isBlank c = false ∧ isWordChar c = false ∧ c.isDigit = false ∧ isQuote c = false ∧
    symbolKind c = .illegal

/-- The lexemes that can be met in a text. -/
def Lexeme.IsWritten (t : Lexeme) : Prop :=
  match t.kind with
  | .eof => False
  | .illegal => ∃ c, IsStray c ∧ t.literal = String.ofList [c]
  | .ident => IsName t.literal
  | .int => IsDigits t.literal
  | .string => IsUnquoted t.literal
  | kind => t.literal = kind.text

/-- A reserved word is written as its kind says. -/
lemma TokenKind.text_ofWord {word : String} (h : ofWord word ≠ ident) :
    word = (ofWord word).text := by
  have hall : ∀ p ∈ reserved, p.1 = p.2.text := by decide
  unfold ofWord at h ⊢
  cases hl : reserved.lookup word with
  | none => simp [hl] at h
  | some kind =>
    obtain ⟨before, after, heq, -⟩ := List.lookup_eq_some_iff.mp hl
    have hmem : (word, kind) ∈ reserved := by rw [heq]; simp
    exact hall _ hmem

/-- A word is written, as a name or as a reserved word. -/
lemma Lexeme.isWritten_word {word : String} (hne : word.toList ≠ [])
    (hall : ∀ c ∈ word.toList, isWordChar c = true) :
    Lexeme.IsWritten ⟨.ofWord word, word⟩ := by
  have hmem := TokenKind.ofWord_mem word
  by_cases hid : TokenKind.ofWord word = .ident
  · rw [hid]
    exact ⟨hne, hall, hid⟩
  · have htext := TokenKind.text_ofWord hid
    simp only [List.mem_cons, hid, List.not_mem_nil, or_false, false_or] at hmem
    rcases hmem with h | h | h | h | h | h | h | h <;>
      · rw [h] at htext ⊢
        exact htext

/-- A symbol is written, as an operator, a bracket or a separator or as a character that starts no
token. -/
lemma Lexeme.isWritten_symbol {c : Char} (hblank : isBlank c = false)
    (hword : isWordChar c = false) (hdigit : c.isDigit = false) (hquote : isQuote c = false) :
    Lexeme.IsWritten ⟨symbolKind c, String.ofList [c]⟩ := by
  by_cases hstray : symbolKind c = .illegal
  · rw [hstray]
    exact ⟨c, ⟨hblank, hword, hdigit, hquote, hstray⟩, rfl⟩
  · revert hstray
    unfold symbolKind
    split
    case h_18 =>
      intro hstray
      exact absurd rfl hstray
    all_goals
      intro _
      rfl

/-- The lexeme of every piece of a text is written. -/
lemma Piece.isWritten_scan {c : Char} (cs : List Char) (hblank : isBlank c = false) :
    (Piece.scan c cs).lexeme.IsWritten := by
  unfold scan
  split
  · rename_i hword
    refine Lexeme.isWritten_word (by simp) ?_
    intro d hd
    rw [String.toList_ofList] at hd
    rcases List.mem_cons.mp hd with rfl | hd
    · exact hword
    · exact (List.all_eq_true.mp List.all_takeWhile) d hd
  split
  · rename_i hdigit
    change IsDigits (String.ofList (c :: cs.takeWhile Char.isDigit))
    refine ⟨by simp, ?_⟩
    intro d hd
    rw [String.toList_ofList] at hd
    rcases List.mem_cons.mp hd with rfl | hd
    · exact hdigit
    · exact (List.all_eq_true.mp List.all_takeWhile) d hd
  split
  · change IsUnquoted (String.ofList (cs.takeWhile (!isQuote ·)))
    intro d hd
    rw [String.toList_ofList] at hd
    have hd' := (List.all_eq_true.mp List.all_takeWhile) d hd
    simpa using hd'
  · rename_i hword hdigit hquote
    split
    · exact (rfl : _ = TokenKind.eq.text)
    · exact (rfl : _ = TokenKind.notEq.text)
    · exact Lexeme.isWritten_symbol hblank (by simpa using hword) (by simpa using hdigit)
        (by simpa using hquote)

/-- What is left after blanks does not start with a blank. -/
lemma isBlank_of_dropWhile {cs rest : List Char} {c : Char}
    (h : cs.dropWhile isBlank = c :: rest) : isBlank c = false := by
  have hhead := List.head?_dropWhile_not isBlank cs
  rw [h] at hhead
  simpa using hhead

/-- Every token from a position on is written. -/
lemma Cursor.isWritten_of_mem_tokens (c : Cursor) :
    ∀ t ∈ c.tokens, t.toLexeme.IsWritten := by
  fun_induction Cursor.tokens c with
  | case1 c h => simp
  | case2 c h ih =>
    intro t ht
    rcases List.mem_cons.mp ht with rfl | ht
    · unfold next at h ⊢
      split
      · rename_i hrest
        simp [hrest, Lexeme.eof] at h
      · rename_i d ds hrest
        exact Piece.isWritten_scan ds (isBlank_of_dropWhile hrest)
    · exact ih t ht

/-- **Every lexeme of a text is written.** -/
theorem Lexeme.isWritten_of_mem_lexemes {source : String} {t : Lexeme}
    (h : t ∈ lexemes source) : t.IsWritten := by
  obtain ⟨token, htoken, rfl⟩ := List.mem_map.mp h
  exact Cursor.isWritten_of_mem_tokens _ token htoken

/-! ## Layouts -/

/-- The characters that a lexeme is written with: its literal, and two quotes around that of a
string. -/
def Lexeme.chars (t : Lexeme) : List Char :=
  match t.kind with
  | .string => '"' :: (t.literal.toList ++ ['"'])
  | _ => t.literal.toList

/-- Whether a lexeme is over when a character follows it. A word goes on as long as letters do, a
run of digits as long as digits do, and `=` and `!` take a `=` that follows them. -/
def Lexeme.endsBefore (t : Lexeme) (c : Char) : Bool :=
  match t.kind with
  | .ident | .kwFn | .kwLet | .kwIf | .kwElse | .kwTrue | .kwFalse | .kwReturn | .kwMacro =>
    !isWordChar c
  | .int => !c.isDigit
  | .assign | .bang => c != '='
  | _ => true

/-- A list of characters lays out a list of lexemes: it is the characters of the lexemes in order,
with blanks before, between and after them, and each lexeme is over where its characters end. -/
inductive Layout : List Lexeme → List Char → Prop
  /-- Blanks lay out no lexeme. -/
  | nil {blanks : List Char} (hblanks : ∀ c ∈ blanks, isBlank c = true) : Layout [] blanks
  /-- A lexeme comes after blanks and before the layout of the others. -/
  | cons {blanks rest : List Char} {t : Lexeme} {ts : List Lexeme}
      (hblanks : ∀ c ∈ blanks, isBlank c = true)
      (hend : ∀ c ∈ rest.head?, t.endsBefore c = true) (hrest : Layout ts rest) :
      Layout (t :: ts) (blanks ++ t.chars ++ rest)

/-- Every lexeme is over before a blank. -/
lemma Lexeme.endsBefore_of_isBlank (t : Lexeme) {c : Char} (h : isBlank c = true) :
    t.endsBefore c = true := by
  simp only [isBlank, Bool.or_eq_true, beq_iff_eq] at h
  unfold endsBefore
  rcases h with ((rfl | rfl) | rfl) | rfl <;> split <;> rfl

/-- A digit is no letter. -/
lemma isWordChar_of_isDigit {c : Char} (h : c.isDigit = true) : isWordChar c = false := by
  have hdigit : c.val ≤ '9'.val := (by simpa [Char.isDigit] using h : '0'.val ≤ c.val ∧ _).2
  have outside (first last : Char) (hfirst : '9'.val < first.val) :
      decide (c.val ≥ first.val ∧ c.val ≤ last.val) = false :=
    decide_eq_false fun hrange => UInt32.not_lt.mpr (UInt32.le_trans hrange.1 hdigit) hfirst
  have hupper : c.isUpper = false := outside 'A' 'Z' (by decide)
  have hlower : c.isLower = false := (Bool.decide_and _ _).symm.trans (outside 'a' 'z' (by decide))
  have hunderscore : (c == '_') = false := by
    rw [beq_eq_false_iff_ne]
    rintro rfl
    exact absurd h (by decide)
  show ((c.isUpper || c.isLower) || c == '_') = false
  rw [hupper, hlower, hunderscore]
  rfl

/-- Characters of a class without the blanks are no blanks. -/
lemma isBlank_of_class {p : Char → Bool} {c : Char} (hp : [' ', '\t', '\n', '\r'].any p = false)
    (h : p c = true) : isBlank c = false := by
  rw [Bool.eq_false_iff]
  intro hblank
  have hmem : c ∈ [' ', '\t', '\n', '\r'] := by simpa [isBlank, or_assoc] using hblank
  exact List.any_eq_false.mp hp c hmem h

/-- A run of characters of a class is cut off exactly where a character of another class follows. -/
lemma span_append_of_stop (p : Char → Bool) {cs rest : List Char} (hall : ∀ c ∈ cs, p c = true)
    (hstop : ∀ c ∈ rest.head?, p c = false) :
    (cs ++ rest).takeWhile p = cs ∧ (cs ++ rest).dropWhile p = rest := by
  rw [List.takeWhile_append_of_pos hall, List.dropWhile_append_of_pos hall]
  cases rest with
  | nil => simp
  | cons c cs' =>
    have hc : p c = false := hstop c (by simp)
    simp [hc]

namespace Piece

variable {c : Char} {cs rest : List Char} {t : Lexeme}

/-- What starts with a run of characters of a class has the first of them in front, and then as many
of the class as the run has, up to where a character of another class follows. -/
lemma eq_run_of_append {p : Char → Bool} {run : String} (hne : run.toList ≠ [])
    (hall : ∀ d ∈ run.toList, p d = true) (heq : run.toList ++ rest = c :: cs)
    (hstop : ∀ d ∈ rest.head?, p d = false) :
    p c = true ∧ String.ofList (c :: cs.takeWhile p) = run ∧ cs.dropWhile p = rest := by
  obtain ⟨d, ds, hrun⟩ := List.exists_cons_of_ne_nil hne
  rw [hrun, List.cons_append] at heq
  rw [hrun] at hall
  injection heq with hd hds
  subst hd hds
  obtain ⟨htake, hdrop⟩ := span_append_of_stop p
    (fun e (he : e ∈ ds) => hall e (List.mem_cons_of_mem _ he)) hstop
  refine ⟨hall d List.mem_cons_self, ?_, hdrop⟩
  rw [htake, ← hrun, String.ofList_toList]

/-- A word is scanned as a whole if no letter follows. -/
lemma scan_word {word : String} (hne : word.toList ≠ [])
    (hall : ∀ d ∈ word.toList, isWordChar d = true) (heq : word.toList ++ rest = c :: cs)
    (hstop : ∀ d ∈ rest.head?, isWordChar d = false) :
    isBlank c = false ∧ (scan c cs).lexeme = ⟨.ofWord word, word⟩ ∧ (scan c cs).rest = rest := by
  obtain ⟨hc, htext, hrest⟩ := eq_run_of_append hne hall heq hstop
  simp only [scan, hc, if_true, Piece.word, plain, htext, hrest, and_true]
  exact isBlank_of_class (by decide) hc

/-- A run of digits is scanned as a whole if no digit follows. -/
lemma scan_digits {digits : String} (h : IsDigits digits)
    (heq : digits.toList ++ rest = c :: cs) (hstop : ∀ d ∈ rest.head?, d.isDigit = false) :
    isBlank c = false ∧ (scan c cs).lexeme = ⟨.int, digits⟩ ∧ (scan c cs).rest = rest := by
  obtain ⟨hc, htext, hrest⟩ := eq_run_of_append h.1 h.2 heq hstop
  simp only [scan, isWordChar_of_isDigit hc, hc, Bool.false_eq_true, if_false, if_true,
    Piece.digits, plain, htext, hrest, and_true]
  exact isBlank_of_class (by decide) hc

/-- A string is scanned up to its closing quote. -/
lemma scan_quoted {text : String} (h : IsUnquoted text) :
    (scan '"' (text.toList ++ '"' :: rest)).lexeme = ⟨.string, text⟩ ∧
      (scan '"' (text.toList ++ '"' :: rest)).rest = rest := by
  have hall : ∀ c ∈ text.toList, (!isQuote c) = true := fun c hc => by rw [h c hc]; rfl
  have hstop : ∀ c ∈ ('"' :: rest).head?, (!isQuote c) = false := by simp [isQuote]
  obtain ⟨htake, hdrop⟩ := span_append_of_stop (!isQuote ·) hall hstop
  have hscan : scan '"' (text.toList ++ '"' :: rest) = quoted (text.toList ++ '"' :: rest) := rfl
  simp only [hscan, quoted, htake, hdrop, String.ofList_toList, List.drop_succ_cons, List.drop_zero,
    and_self]

/-- An operator that is the start of a longer one is scanned alone if it is not continued. -/
lemma scan_not_continued (hc : c = '=' ∨ c = '!') (hstop : ∀ d ∈ rest.head?, d ≠ '=') :
    scan c rest = plain (symbolKind c) [c] rest := by
  cases rest with
  | nil => rcases hc with rfl | rfl <;> rfl
  | cons d ds =>
    have hd : d ≠ '=' := hstop d rfl
    rcases hc with rfl | rfl <;>
    · unfold scan
      rw [if_neg (by decide), if_neg (by decide), if_neg (by decide)]
      split
      · rename_i heq
        injection heq with h _
        exact absurd h hd
      · rename_i heq
        injection heq with h _
        exact absurd h hd
      · rfl

/-- A symbol is scanned together with the character after it if they are an operator, and alone
otherwise. -/
lemma scan_symbol (hword : isWordChar c = false) (hdigit : c.isDigit = false)
    (hquote : isQuote c = false) (d : Char) (cs : List Char) :
    scan c (d :: cs) =
      if c = '=' ∧ d = '=' then plain .eq ['=', '='] cs
      else if c = '!' ∧ d = '=' then plain .notEq ['!', '='] cs
      else plain (symbolKind c) [c] (d :: cs) := by
  unfold scan
  rw [if_neg (by simp [hword]), if_neg (by simp [hdigit]), if_neg (by simp [hquote])]
  split
  · rename_i heq
    cases heq
    rfl
  · rename_i heq
    cases heq
    rfl
  · rename_i heq hequals hbang
    rw [if_neg, if_neg]
    · rintro ⟨rfl, rfl⟩
      exact hbang _ rfl rfl
    · rintro ⟨rfl, rfl⟩
      exact hequals _ rfl rfl

/-- A character that starts no token is scanned alone. -/
lemma scan_stray (h : IsStray c) : scan c rest = plain .illegal [c] rest := by
  obtain ⟨-, hword, hdigit, hquote, hkind⟩ := h
  unfold scan
  rw [if_neg (by simp [hword]), if_neg (by simp [hdigit]), if_neg (by simp [hquote])]
  split
  · exact absurd hkind (by decide)
  · exact absurd hkind (by decide)
  · rw [hkind]

/-- **A written lexeme is scanned from its characters**, if it is over where they end. -/
theorem scan_of_isWritten (ht : t.IsWritten) (heq : t.chars ++ rest = c :: cs)
    (hend : ∀ d ∈ rest.head?, t.endsBefore d = true) :
    isBlank c = false ∧ (scan c cs).lexeme = t ∧ (scan c cs).rest = rest := by
  obtain ⟨kind, literal⟩ := t
  cases kind
  case eof => exact ht.elim
  case illegal =>
    obtain ⟨d, hstray, rfl⟩ := ht
    rw [Lexeme.chars, String.toList_ofList] at heq
    cases heq
    rw [scan_stray hstray]
    exact ⟨hstray.1, rfl, rfl⟩
  case ident =>
    obtain ⟨hne, hall, hkind⟩ := ht
    rw [← hkind]
    exact scan_word hne hall heq fun d hd => by simpa [Lexeme.endsBefore] using hend d hd
  case int => exact scan_digits ht heq fun d hd => by simpa [Lexeme.endsBefore] using hend d hd
  case string =>
    have hchars : literal.toList ++ '"' :: rest = cs ∧ '"' = c := by
      simpa [Lexeme.chars, and_comm] using heq
    obtain ⟨rfl, rfl⟩ := hchars
    exact ⟨rfl, scan_quoted ht⟩
  case assign | bang =>
    dsimp only [Lexeme.IsWritten, TokenKind.text] at ht
    subst ht
    cases heq
    rw [scan_not_continued (by decide) fun d hd => by simpa [Lexeme.endsBefore] using hend d hd]
    exact ⟨rfl, rfl, rfl⟩
  case kwFn | kwLet | kwIf | kwElse | kwTrue | kwFalse | kwReturn | kwMacro =>
    dsimp only [Lexeme.IsWritten, TokenKind.text] at ht
    subst ht
    exact scan_word (by decide) (List.all_eq_true.mp (by decide)) heq
      fun d hd => by simpa [Lexeme.endsBefore] using hend d hd
  all_goals
    dsimp only [Lexeme.IsWritten, TokenKind.text] at ht
    subst ht
    cases heq
    exact ⟨rfl, rfl, rfl⟩

end Piece

/-- A written lexeme is written with at least one character. -/
lemma Lexeme.chars_ne_nil {t : Lexeme} (h : t.IsWritten) : t.chars ≠ [] := by
  obtain ⟨kind, literal⟩ := t
  cases kind
  case eof => exact h.elim
  case illegal =>
    obtain ⟨c, -, rfl⟩ := h
    simp [chars]
  case ident => exact h.1
  case int => exact h.1
  case string => simp [chars]
  all_goals
    dsimp only [IsWritten, TokenKind.text] at h
    subst h
    decide

/-- Blanks are skipped up to the first character that is none. -/
lemma Cursor.rest_skipBlanks (offset : Nat) {blanks cs : List Char}
    (hblanks : ∀ c ∈ blanks, isBlank c = true) (hstop : ∀ c ∈ cs.head?, isBlank c = false) :
    (Cursor.mk offset (blanks ++ cs)).skipBlanks.rest = cs := by
  unfold skipBlanks
  exact (span_append_of_stop isBlank hblanks hstop).2

/-- **The tokens of a layout** are the lexemes that it lays out.

**Proof sketch.** Induction on the layout. After the blanks the scanner meets the characters of the
next lexeme, which it takes as one piece (`Piece.scan_of_isWritten`). -/
theorem Layout.tokens_eq {ts : List Lexeme} {cs : List Char} (h : Layout ts cs)
    (hts : ∀ t ∈ ts, t.IsWritten) (offset : Nat) :
    (Cursor.mk offset cs).tokens.map Token.toLexeme = ts := by
  induction h generalizing offset with
  | @nil blanks hblanks =>
    have hrest : (Cursor.mk offset blanks).skipBlanks.rest = [] := by
      have hskip := Cursor.rest_skipBlanks offset hblanks
        (by simp : ∀ c ∈ [].head?, isBlank c = false)
      rwa [List.append_nil] at hskip
    rw [Cursor.tokens, if_pos (by simp [Cursor.next, hrest, Lexeme.eof])]
    rfl
  | @cons blanks rest t ts hblanks hend hrest ih =>
    have ht := hts t List.mem_cons_self
    obtain ⟨c, cs, heq⟩ : ∃ c cs, t.chars ++ rest = c :: cs :=
      List.exists_cons_of_ne_nil (by simp [Lexeme.chars_ne_nil ht])
    obtain ⟨hblank, hlexeme, hafter⟩ := Piece.scan_of_isWritten ht heq hend
    have hskip : (Cursor.mk offset (blanks ++ t.chars ++ rest)).skipBlanks.rest = c :: cs := by
      rw [List.append_assoc, heq]
      exact Cursor.rest_skipBlanks offset hblanks (by simpa using hblank)
    have hkind : t.kind ≠ .eof := by
      intro hk
      rw [Lexeme.IsWritten, hk] at ht
      exact ht
    rw [Cursor.tokens]
    simp only [Cursor.next, hskip, hlexeme, hafter, hkind, if_false, List.map_cons]
    rw [ih (fun u hu => hts u (List.mem_cons_of_mem _ hu))]

/-- The lexemes of a text that lays out written lexemes are these lexemes. -/
theorem Layout.lexemes_eq {ts : List Lexeme} {source : String} (h : Layout ts source.toList)
    (hts : ∀ t ∈ ts, t.IsWritten) : lexemes source = ts :=
  h.tokens_eq hts 0

/-- A blank in front of a layout makes no difference. -/
lemma Layout.blank_cons {ts : List Lexeme} {cs : List Char} (h : Layout ts cs) {c : Char}
    (hc : isBlank c = true) : Layout ts (c :: cs) := by
  cases h with
  | nil hblanks => exact .nil (by simpa [hc] using hblanks)
  | @cons blanks rest t ts hblanks hend hrest =>
    have hall : ∀ d ∈ c :: blanks, isBlank d = true := by simpa [hc] using hblanks
    exact .cons hall hend hrest

/-- Lexemes with a space after each of them. -/
def spaced : List Lexeme → List Char
  | [] => []
  | t :: ts => t.chars ++ ' ' :: spaced ts

/-- Every list of lexemes can be laid out: with a space after each of them. -/
theorem layout_spaced (ts : List Lexeme) : Layout ts (spaced ts) := by
  induction ts with
  | nil => exact .nil (by simp [spaced])
  | cons t ts ih =>
    have hspace : Layout ts (' ' :: spaced ts) := ih.blank_cons (by decide)
    have hend : ∀ c ∈ (' ' :: spaced ts).head?, t.endsBefore c = true := by
      intro c hc
      obtain rfl : ' ' = c := by simpa using hc
      exact t.endsBefore_of_isBlank rfl
    have hnone : ∀ c ∈ ([] : List Char), isBlank c = true := by simp
    exact .cons hnone hend hspace

end QuoteLang
