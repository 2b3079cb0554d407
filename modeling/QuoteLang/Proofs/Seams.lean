import Mathlib.Algebra.Ring.Parity
import QuoteLang.Proofs.Tiling

set_option relaxedAutoImplicit false
set_option autoImplicit false

/-!
# Texts that go on after blanks

Every token ends before a blank, except for a string, which goes on up to its closing quote. Quotes
stand around strings and nowhere else, and only the last string of a text may lack its closing one.
So the quotes of a text are even in number exactly if no string is open where the text ends. If none
is, the text may go on after blanks, and what comes there is scanned as it is alone. If one is, even
blanks are read as a part of it.

## Main definitions

* `Token.shift` — a token so many bytes further on.

## Main results

* `Lexeme.IsWritten.isUnquoted` — the literal of a lexeme contains no quote.
* `Tiling.append` — where no string is open, a tiling goes on after blanks.
* `Tiling.not_append` — where a string is open, blanks change the tokens.
* `scan_append_iff` — a text goes on after blanks exactly if its quotes are even in number.
-/

namespace QuoteLang

/-! ## Quotes -/

/-- Characters of a class without the quote are no quotes. -/
lemma isQuote_of_class {p : Char → Bool} (hp : p '"' = false) {c : Char} (h : p c = true) :
    isQuote c = false := by
  rw [isQuote, beq_eq_false_iff_ne]
  rintro rfl
  rw [hp] at h
  cases h

/-- Where no character is a quote there are none to be counted. -/
lemma count_quotes_eq_zero {cs : List Char} (h : ∀ c ∈ cs, isQuote c = false) :
    cs.count '"' = 0 :=
  List.count_eq_zero.mpr fun hmem => absurd (h _ hmem) (by decide)

/-- Blanks are no quotes. -/
lemma count_quotes_of_blanks {cs : List Char} (h : ∀ c ∈ cs, isBlank c = true) :
    cs.count '"' = 0 :=
  count_quotes_eq_zero fun c hc => isQuote_of_class (by decide) (h c hc)

namespace Lexeme

variable {t : Lexeme}

/-- **The literal of a lexeme contains no quote**, that of a string included. -/
theorem IsWritten.isUnquoted (h : t.IsWritten) : IsUnquoted t.literal := by
  have htext (kind : TokenKind) : IsUnquoted kind.text := by
    cases kind <;> simp [IsUnquoted, TokenKind.text, isQuote]
  obtain ⟨kind, literal⟩ := t
  cases kind
  case eof => exact h.elim
  case illegal =>
    obtain ⟨c, ⟨-, -, -, hquote, -⟩, rfl⟩ := h
    simpa [IsUnquoted] using hquote
  case ident => exact fun c hc => isQuote_of_class (by decide) (h.2.1 c hc)
  case int => exact fun c hc => isQuote_of_class (by decide) (h.2 c hc)
  case string => exact h
  all_goals
    rw [show literal = _ from h]
    exact htext _

/-- A string is written with two quotes. -/
lemma chars_of_string (h : t.kind = .string) :
    t.chars = ('"' :: t.literal.toList) ++ ['"'] := by
  rw [chars, h]
  rfl

/-- A lexeme is written with two quotes or with none. -/
lemma IsWritten.even_count_chars (h : t.IsWritten) : Even (t.chars.count '"') := by
  have hliteral : t.literal.toList.count '"' = 0 := count_quotes_eq_zero h.isUnquoted
  by_cases hkind : t.kind = .string
  · rw [chars_of_string hkind, List.count_append, List.count_cons_self, hliteral]
    exact even_two
  · rw [chars_of_kind_ne hkind, hliteral]
    exact Even.zero

/-- A string that lacks its closing quote is written with one quote. -/
lemma IsWritten.count_open (h : t.IsWritten) : ('"' :: t.literal.toList).count '"' = 1 := by
  rw [List.count_cons_self, count_quotes_eq_zero h.isUnquoted]

end Lexeme

/-! ## Tilings that go on -/

/-- The same lexeme, so many bytes further on. -/
def Token.shift (bytes : Nat) (t : Token) : Token :=
  { t with offset := bytes + t.offset }

namespace Tiling

variable {offset : Nat} {cs ds blanks : List Char} {ts us : List Token}

/-- A tiling so many bytes further on. -/
lemma shift (h : Tiling offset cs ts) (bytes : Nat) :
    Tiling (bytes + offset) cs (ts.map (Token.shift bytes)) := by
  induction h with
  | nil hblanks => exact .nil hblanks
  | @cons offset blanks text rest t ts hblanks hoffset hwritten hcovers hend _ ih =>
    refine .cons (t := t.shift bytes) hblanks ?_ hwritten hcovers hend ?_
    · rw [Token.shift, hoffset, Nat.add_assoc]
    · rw [Token.shift, Nat.add_assoc]
      exact ih

/-- Blanks before a tiling. -/
lemma blanks_append (hblanks : ∀ c ∈ blanks, isBlank c = true)
    (h : Tiling (offset + utf8Length blanks) ds us) : Tiling offset (blanks ++ ds) us := by
  cases h with
  | nil hds =>
    refine .nil fun c hc => ?_
    rcases List.mem_append.mp hc with hc | hc
    · exact hblanks c hc
    · exact hds c hc
  | @cons _ blanks' text rest t us hblanks' hoffset hwritten hcovers hend hrest =>
    rw [← List.append_assoc, ← List.append_assoc]
    refine .cons (fun c hc => ?_) ?_ hwritten hcovers hend hrest
    · rcases List.mem_append.mp hc with hc | hc
      · exact hblanks c hc
      · exact hblanks' c hc
    · rw [hoffset, utf8Length_append, Nat.add_assoc]

/-- **Where no string is open, a tiling goes on after blanks.**

**Proof sketch.** Induction on the tiling. A token is written with an even number of quotes unless
it is the open string, which would leave an odd number in all. So every token is followed by the
others or by a blank, and is over there. -/
theorem append (h : Tiling offset cs ts) (heven : Even (cs.count '"'))
    (hblanks : ∀ c ∈ blanks, isBlank c = true) (hne : blanks ≠ [])
    (h' : Tiling (offset + utf8Length (cs ++ blanks)) ds us) :
    Tiling offset (cs ++ blanks ++ ds) (ts ++ us) := by
  induction h with
  | @nil offset before hbefore =>
    refine blanks_append (fun c hc => ?_) h'
    rcases List.mem_append.mp hc with hc | hc
    · exact hbefore c hc
    · exact hblanks c hc
  | @cons offset before text rest t ts hbefore hoffset hwritten hcovers hend _ ih =>
    rw [List.count_append, List.count_append, count_quotes_of_blanks hbefore, Nat.zero_add] at heven
    rcases hcovers with rfl | ⟨-, rfl, rfl⟩
    · have hrest : Even (rest.count '"') := (Nat.even_add.mp heven).mp hwritten.even_count_chars
      have hstart : t.offset + utf8Length t.chars + utf8Length (rest ++ blanks) =
          offset + utf8Length (before ++ t.chars ++ rest ++ blanks) := by
        simp only [utf8Length_append, hoffset]
        omega
      have hlater := ih hrest (by rwa [hstart])
      rw [List.append_assoc _ rest blanks, List.append_assoc _ (rest ++ blanks) ds]
      refine .cons hbefore hoffset hwritten (.inl rfl) (fun c hc => ?_) hlater
      cases rest with
      | nil =>
        obtain ⟨b, bs, rfl⟩ := List.exists_cons_of_ne_nil hne
        obtain rfl : b = c := by simpa using hc
        exact t.endsBefore_of_isBlank (hblanks _ List.mem_cons_self)
      | cons d rest => exact hend c hc
    · rw [hwritten.count_open, List.count_nil] at heven
      exact absurd heven (by decide)

/-- **Where a string is open, blanks change the tokens**: they are a part of the string.

**Proof sketch.** Induction on the tiling. The tokens before the open string tile the same
characters in both texts. The open string tiles what is left of the first text, so it cannot tile
what is left of the second, which is longer and ends in no quote. -/
theorem not_append (h : Tiling offset cs ts) (hodd : Odd (cs.count '"'))
    (hblanks : ∀ c ∈ blanks, isBlank c = true) (hne : blanks ≠ []) :
    ¬Tiling offset (cs ++ blanks) ts := by
  induction h with
  | @nil offset before hbefore =>
    rw [count_quotes_of_blanks hbefore] at hodd
    exact absurd hodd (by decide)
  | @cons offset before text rest t ts hbefore hoffset hwritten hcovers hend _ ih =>
    intro h'
    rw [List.append_assoc, List.append_assoc] at h'
    generalize hcs : before ++ (text ++ (rest ++ blanks)) = cs' at h'
    cases h' with
    | @cons _ before' text' rest' _ _ hbefore' hoffset' _ hcovers' _ hrest' =>
      have hlength : before.length = before'.length := by
        rw [hoffset', Cursor.utf8Length_of_blanks hbefore, Cursor.utf8Length_of_blanks hbefore']
          at hoffset
        omega
      rw [List.append_assoc] at hcs
      obtain ⟨-, hsame⟩ := List.append_inj hcs hlength
      rcases hcovers with rfl | ⟨hkind, rfl, rfl⟩
      · rw [List.count_append, List.count_append, count_quotes_of_blanks hbefore, Nat.zero_add,
          Nat.odd_add'] at hodd
        rcases hcovers' with rfl | ⟨hkind, rfl, rfl⟩
        · obtain rfl := List.append_cancel_left hsame
          exact ih (hodd.mpr hwritten.even_count_chars) hrest'
        · -- A string that has been closed in the first text is longer than an open one.
          have hle := congrArg List.length hsame
          rw [Lexeme.chars_of_string hkind] at hle
          simp only [List.length_append, List.length_cons, List.length_nil] at hle
          omega
      · rw [List.nil_append] at hsame
        rcases hcovers' with rfl | ⟨-, rfl, rfl⟩
        · -- The closing quote would have to be a blank.
          rw [Lexeme.chars_of_string hkind, List.append_assoc] at hsame
          obtain rfl := List.append_cancel_left hsame
          exact absurd (hblanks '"' List.mem_cons_self) (by decide)
        · exact hne (List.append_cancel_left hsame)

end Tiling

/-! ## Texts that go on -/

/-- **A text goes on after blanks exactly if its quotes are even in number.** The tokens of a text,
some blanks and a second text are then the tokens of the first, and those of the second with all
that stands before it added to their offsets. So it is for the end of the text, which is read after
the tokens as often as it is asked for. -/
theorem scan_append_iff (source : String) :
    Even (source.toList.count '"') ↔
      ∀ blanks source' : String, blanks ≠ "" → (∀ c ∈ blanks.toList, isBlank c = true) →
        let text := source ++ blanks ++ source'
        let bytes := (source ++ blanks).utf8ByteSize
        scan text = scan source ++ (scan source').map (Token.shift bytes) ∧
        ∀ n, (Cursor.start text).token ((scan source).length + n) =
          ((Cursor.start source').token n).shift bytes := by
  have htiling : Tiling 0 source.toList (scan source) := (Cursor.start source).tiling_tokens
  constructor
  · intro heven blanks source' hne hblanks text bytes
    have hbytes : bytes = 0 + utf8Length (source.toList ++ blanks.toList) := by
      rw [Nat.zero_add, ← String.toList_append, utf8Length_ofList, String.ofList_toList]
    have hshift : Tiling (bytes + 0) source'.toList ((scan source').map (Token.shift bytes)) :=
      (Cursor.start source').tiling_tokens.shift bytes
    rw [Nat.add_zero, hbytes] at hshift
    have happend := htiling.append heven hblanks (by simpa using hne) hshift
    have hscan : scan text = scan source ++ (scan source').map (Token.shift bytes) := by
      rw [hbytes, ← happend.tokens_eq, ← String.toList_append, ← String.toList_append]
      rfl
    refine ⟨hscan, fun n => ?_⟩
    rw [Cursor.token_start, Cursor.token_start, hscan, List.getElem?_append_right (by omega),
      Nat.add_sub_cancel_left, List.getElem?_map]
    cases (scan source')[n]? with
    | some t => rfl
    | none =>
      show (⟨.eof, text.utf8ByteSize⟩ : Token) = ⟨.eof, bytes + source'.utf8ByteSize⟩
      rw [String.utf8ByteSize_append]
  · intro h
    refine Classical.byContradiction fun hodd => ?_
    have hblanks : ∀ c ∈ " ".toList, isBlank c = true := by simp [isBlank]
    obtain ⟨hscan, -⟩ := h " " "" (by decide) hblanks
    have hblank : Tiling 0 (source ++ " " ++ "").toList (scan (source ++ " " ++ "")) :=
      (Cursor.start _).tiling_tokens
    have hempty : scan "" = [] := (Tiling.nil (by simp)).tokens_eq
    rw [hscan, hempty, List.map_nil, List.append_nil, String.append_empty, String.toList_append]
      at hblank
    exact htiling.not_append (Nat.not_even_iff_odd.mp hodd) hblanks (by simp) hblank

/-- A string, a stray character of two bytes and an `=` are scanned as they are alone although
another `=` follows after blanks. The tokens behind the blanks are ten bytes further on. -/
theorem scan_append_iff_stray :
    let source := "\"é\" ü="
    let text := source ++ "\r\n" ++ "= 1"
    Even (source.toList.count '"') ∧ "\r\n" ≠ "" ∧ (∀ c ∈ "\r\n".toList, isBlank c = true) ∧
      (source ++ "\r\n").utf8ByteSize = 10 ∧
      scan text = scan source ++ (scan "= 1").map (Token.shift 10) ∧
      ∀ n, (Cursor.start text).token ((scan source).length + n) =
        ((Cursor.start "= 1").token n).shift 10 := by
  intro source text
  have heven : Even (source.toList.count '"') := by decide +kernel
  have hblanks : ∀ c ∈ "\r\n".toList, isBlank c = true := by simp [isBlank]
  have hbytes : (source ++ "\r\n").utf8ByteSize = 10 := by decide +kernel
  have happend := (scan_append_iff source).mp heven "\r\n" "= 1" (by decide) hblanks
  rw [hbytes] at happend
  exact ⟨heven, by decide, hblanks, hbytes, happend⟩

end QuoteLang
