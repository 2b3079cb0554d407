import QuoteLang.Proofs.Layout

set_option relaxedAutoImplicit false
set_option autoImplicit false

/-!
# Tilings

The tokens of a text tile it: the text consists of the blanks between the tokens and of what the
tokens are written with, each at its offset, and no token could have been longer. There is one way
only to tile a text.

A layout is a text for given lexemes, and writes every string with both of its quotes. A tiling is
for a given text, so its last token may be a string that the text ends in.

## Main definitions

* `Cursor.token` — the token that is read after so many others.
* `Lexeme.Covers` — the characters that a lexeme may be read from.
* `Tiling` — tokens tile the characters from an offset on.

## Main results

* `Cursor.token_eq` — reading tokens gives the tokens of the text and then its end, for ever.
* `Cursor.tiling_tokens` — the tokens from a position on tile what is left.
* `Tiling.tokens_eq` — there is no other tiling.
* `scan_tiling` — the tokens of a text are its only tiling.
-/

namespace QuoteLang

/-! ## Reading tokens one by one -/

namespace Cursor

/-- The position after so many tokens have been read. -/
def skip (c : Cursor) : Nat → Cursor
  | 0 => c
  | n + 1 => c.next.2.skip n

/-- The token that is read after so many others. -/
def token (c : Cursor) (n : Nat) : Token :=
  (c.skip n).next.1

/-- The offset at which the text ends. -/
def stop (c : Cursor) : Nat :=
  c.offset + utf8Length c.rest

/-- Each blank takes one byte. -/
lemma utf8Length_of_blanks {cs : List Char} (h : ∀ c ∈ cs, isBlank c = true) :
    utf8Length cs = cs.length := by
  induction cs with
  | nil => rfl
  | cons c cs ih =>
    rw [List.forall_mem_cons] at h
    have hsize : c.utf8Size = 1 := by
      have hblank := h.1
      simp only [isBlank, Bool.or_eq_true, beq_iff_eq] at hblank
      rcases hblank with ((rfl | rfl) | rfl) | rfl <;> rfl
    rw [utf8Length, ih h.2, hsize, List.length_cons, Nat.add_comm]

/-- What `takeWhile` takes are blanks. -/
lemma blanks_of_takeWhile (cs : List Char) : ∀ c ∈ cs.takeWhile isBlank, isBlank c = true :=
  List.all_eq_true.mp List.all_takeWhile

/-- Skipping blanks does not move the end of the text. -/
lemma stop_skipBlanks (c : Cursor) : c.skipBlanks.stop = c.stop := by
  have hsplit : utf8Length (c.rest.takeWhile isBlank) + utf8Length (c.rest.dropWhile isBlank) =
      utf8Length c.rest := by
    rw [← utf8Length_append, List.takeWhile_append_dropWhile]
  rw [utf8Length_of_blanks (blanks_of_takeWhile c.rest)] at hsplit
  rw [stop, skipBlanks, stop, Nat.add_assoc, hsplit]

/-- Reading a token does not move the end of the text. -/
lemma stop_next (c : Cursor) : c.next.2.stop = c.stop := by
  rw [← c.stop_skipBlanks, next]
  split
  · rfl
  · rename_i d ds hrest
    show _ + utf8Length (Piece.scan d ds).text + utf8Length (Piece.scan d ds).rest = _
    rw [Nat.add_assoc, ← utf8Length_append, Piece.text_append_rest, stop, hrest]

/-- Where nothing is left the end of the text is read. -/
lemma next_of_rest_eq_nil {c : Cursor} (h : c.rest = []) : c.next = (⟨.eof, c.stop⟩, c) := by
  obtain ⟨offset, rest⟩ := c
  subst h
  rfl

/-- Where nothing is left the end of the text is read for ever. -/
lemma token_of_rest_eq_nil {c : Cursor} (h : c.rest = []) (n : Nat) :
    c.token n = ⟨.eof, c.stop⟩ := by
  have hskip : c.skip n = c := by
    induction n with
    | zero => rfl
    | succ n ih => rwa [skip, next_of_rest_eq_nil h]
  rw [token, hskip, next_of_rest_eq_nil h]

/-- A token that is read has the kind of the end of the text exactly if only blanks were left. -/
lemma kind_next_eq_eof {c : Cursor} : c.next.1.kind = .eof ↔ c.skipBlanks.rest = [] := by
  unfold next
  split
  · rename_i hrest
    simp [Lexeme.eof, hrest]
  · rename_i d ds hrest
    have hwritten := Piece.isWritten_scan ds (isBlank_of_dropWhile hrest)
    simp only [hrest, reduceCtorEq, iff_false]
    intro heof
    rw [Lexeme.IsWritten, heof] at hwritten
    exact hwritten

/-- **Reading tokens** gives those of the text, and then its end as often as it is asked for. -/
theorem token_eq (c : Cursor) (n : Nat) : c.token n = c.tokens[n]?.getD ⟨.eof, c.stop⟩ := by
  fun_induction tokens c generalizing n with
  | case1 c h =>
    have hrest := kind_next_eq_eof.mp h
    have hnext : c.next = (⟨.eof, c.stop⟩, c.skipBlanks) := by
      rw [next, hrest, ← c.stop_skipBlanks, stop, hrest]
      rfl
    cases n with
    | zero => rw [token, skip, hnext]; rfl
    | succ n =>
      have hlater := token_of_rest_eq_nil hrest n
      rw [c.stop_skipBlanks] at hlater
      rw [token, skip, hnext]
      exact hlater
  | case2 c h ih =>
    cases n with
    | zero => rfl
    | succ n =>
      rw [List.getElem?_cons_succ, ← c.stop_next]
      exact ih n

/-- From the start of a text, reading gives the tokens of the text and then its end. -/
lemma token_start (source : String) (n : Nat) :
    (start source).token n = (scan source)[n]?.getD ⟨.eof, source.utf8ByteSize⟩ := by
  have hstop : (start source).stop = source.utf8ByteSize := by
    rw [stop, start, Nat.zero_add, utf8Length_ofList, String.ofList_toList]
  rw [← hstop]
  exact token_eq _ n

end Cursor

/-! ## Tilings -/

/-- The characters that a lexeme may be read from, if others come after them. They are those that it
is written with; at the end of the text a string may lack its closing quote. -/
def Lexeme.Covers (t : Lexeme) (text rest : List Char) : Prop :=
  text = t.chars ∨ t.kind = .string ∧ text = '"' :: t.literal.toList ∧ rest = []

/-- Tokens **tile** the characters from an offset on: these are blanks and the characters of the
tokens by turns. Each token starts at its offset, can be met in a text, and is over where its
characters end. -/
inductive Tiling : Nat → List Char → List Token → Prop
  /-- Blanks are tiled by no token. -/
  | nil {offset : Nat} {blanks : List Char} (hblanks : ∀ c ∈ blanks, isBlank c = true) :
      Tiling offset blanks []
  /-- A token comes after blanks and before the tiling of the others. -/
  | cons {offset : Nat} {blanks text rest : List Char} {t : Token} {ts : List Token}
      (hblanks : ∀ c ∈ blanks, isBlank c = true) (hoffset : t.offset = offset + utf8Length blanks)
      (hwritten : t.IsWritten) (hcovers : t.Covers text rest)
      (hend : ∀ c ∈ rest.head?, t.endsBefore c = true)
      (hrest : Tiling (t.offset + utf8Length text) rest ts) :
      Tiling offset (blanks ++ text ++ rest) (t :: ts)

/-- A lexeme that is no string is written with its literal. -/
lemma Lexeme.chars_of_kind_ne {t : Lexeme} (h : t.kind ≠ .string) :
    t.chars = t.literal.toList := by
  unfold chars
  split
  · contradiction
  · rfl

/-- A lexeme is read from at least one character. -/
lemma Lexeme.Covers.ne_nil {t : Lexeme} {text rest : List Char} (h : t.Covers text rest)
    (ht : t.IsWritten) : text ≠ [] := by
  rcases h with rfl | ⟨-, rfl, -⟩
  · exact Lexeme.chars_ne_nil ht
  · exact List.cons_ne_nil _ _

namespace Piece

variable {c : Char} {cs text rest : List Char} {t : Lexeme}

/-- A word is no string. -/
lemma ofWord_ne_string (word : String) : TokenKind.ofWord word ≠ .string := by
  intro h
  have hmem := TokenKind.ofWord_mem word
  rw [h] at hmem
  simp at hmem

/-- A word is over where no letter follows. -/
lemma endsBefore_word (word : String) {d : Char} (h : isWordChar d = false) :
    Lexeme.endsBefore ⟨.ofWord word, word⟩ d = true := by
  have hmem := TokenKind.ofWord_mem word
  generalize TokenKind.ofWord word = kind at hmem ⊢
  simp only [List.mem_cons, List.not_mem_nil, or_false] at hmem
  rcases hmem with rfl | rfl | rfl | rfl | rfl | rfl | rfl | rfl | rfl <;>
    simp [Lexeme.endsBefore, h]

/-- A symbol is no string, and only `=` and `!` can be continued. -/
lemma symbolKind_cases (c : Char) : symbolKind c ≠ .string ∧
    ∀ d, (c = '=' ∨ c = '!' → d ≠ '=') →
      Lexeme.endsBefore ⟨symbolKind c, String.ofList [c]⟩ d = true := by
  unfold symbolKind
  split <;> refine ⟨nofun, fun d hd => ?_⟩ <;> first | rfl | simpa [Lexeme.endsBefore] using hd

/-- The text of a piece covers its lexeme. -/
lemma covers_scan (c : Char) (cs : List Char) :
    (scan c cs).lexeme.Covers (scan c cs).text (scan c cs).rest := by
  have hplain {kind : TokenKind} (text rest : List Char) (h : kind ≠ .string) :
      (plain kind text rest).lexeme.Covers (plain kind text rest).text
        (plain kind text rest).rest :=
    .inl ((Lexeme.chars_of_kind_ne h).trans String.toList_ofList).symm
  unfold scan
  split
  · exact hplain _ _ (ofWord_ne_string _)
  split
  · exact hplain _ _ (by decide)
  split
  · cases hafter : cs.dropWhile (!isQuote ·) with
    | nil => exact .inr ⟨rfl, by simp [quoted, hafter], by simp [quoted, hafter]⟩
    | cons d ds =>
      have hd := List.head?_dropWhile_not (!isQuote ·) cs
      rw [hafter] at hd
      obtain rfl : d = '"' := by simpa [isQuote] using hd
      exact .inl (by simp [quoted, hafter, Lexeme.chars])
  · split
    · exact hplain _ _ (by decide)
    · exact hplain _ _ (by decide)
    · exact hplain _ _ (symbolKind_cases _).1

/-- A piece is over where its text ends. -/
lemma endsBefore_scan (c : Char) (cs : List Char) :
    ∀ d ∈ (scan c cs).rest.head?, (scan c cs).lexeme.endsBefore d = true := by
  have hstop {p : Char → Bool} {d : Char} (hd : d ∈ (cs.dropWhile p).head?) : p d = false := by
    have hhead := List.head?_dropWhile_not p cs
    rw [Option.mem_def.mp hd] at hhead
    simpa using hhead
  intro d hd
  by_cases hword : isWordChar c = true
  · simp only [scan, hword, if_true, word, plain] at hd ⊢
    exact endsBefore_word _ (hstop hd)
  rw [Bool.not_eq_true] at hword
  by_cases hdigit : c.isDigit = true
  · simp only [scan, hword, hdigit, Bool.false_eq_true, if_false, if_true, digits, plain] at hd ⊢
    simpa [Lexeme.endsBefore] using hstop hd
  rw [Bool.not_eq_true] at hdigit
  by_cases hquote : isQuote c = true
  · simp only [scan, hword, hdigit, hquote, Bool.false_eq_true, if_false, if_true, quoted]
    rfl
  rw [Bool.not_eq_true] at hquote
  cases cs with
  | nil =>
    have hlength := rest_length_lt c []
    rw [List.length_eq_zero_iff.mp (Nat.lt_one_iff.mp hlength)] at hd
    cases hd
  | cons e cs =>
    rw [scan_symbol hword hdigit hquote] at hd ⊢
    split at hd
    · rw [if_pos ‹_›]
      rfl
    rw [if_neg ‹_›]
    split at hd
    · rw [if_pos ‹_›]
      rfl
    · rename_i hequals hbang
      rw [if_neg ‹_›]
      obtain rfl : e = d := by simpa [plain] using hd
      refine (symbolKind_cases c).2 e ?_
      rintro (hc | hc) he
      · exact hequals ⟨hc, he⟩
      · exact hbang ⟨hc, he⟩

/-- **A lexeme is scanned from the characters that cover it**, if it is over where they end. -/
theorem scan_of_covers (ht : t.IsWritten) (hcovers : t.Covers text rest)
    (heq : text ++ rest = c :: cs) (hend : ∀ d ∈ rest.head?, t.endsBefore d = true) :
    isBlank c = false ∧ scan c cs = ⟨t, text, rest⟩ := by
  have hscan : isBlank c = false ∧ (scan c cs).lexeme = t ∧ (scan c cs).rest = rest := by
    rcases hcovers with rfl | ⟨hkind, rfl, rfl⟩
    · exact scan_of_isWritten ht heq hend
    · -- A string that the text ends in.
      obtain ⟨kind, literal⟩ := t
      cases hkind
      rw [List.append_nil] at heq
      cases heq
      have hall : ∀ d ∈ literal.toList, (!isQuote d) = true := fun d hd => by rw [ht d hd]; rfl
      have hstop : ∀ d ∈ ([] : List Char).head?, (!isQuote d) = false := by simp
      obtain ⟨htake, hdrop⟩ := span_append_of_stop (!isQuote ·) hall hstop
      rw [List.append_nil] at htake hdrop
      have hquoted : scan '"' literal.toList = quoted literal.toList := rfl
      simp only [hquoted, quoted, htake, hdrop, String.ofList_toList, List.drop_nil, and_self,
        and_true]
      rfl
  obtain ⟨hblank, hlexeme, hrest⟩ := hscan
  have htext : (scan c cs).text = text := by
    have hsplit := text_append_rest c cs
    rw [hrest, ← heq] at hsplit
    exact List.append_cancel_right hsplit
  refine ⟨hblank, ?_⟩
  rw [← hlexeme, ← htext, ← hrest]

end Piece

/-- **The tokens from a position on** tile what is left. -/
theorem Cursor.tiling_tokens (c : Cursor) : Tiling c.offset c.rest c.tokens := by
  have hblanks := blanks_of_takeWhile c.rest
  fun_induction tokens c with
  | case1 c h =>
    have hrest : c.rest.dropWhile isBlank = [] := kind_next_eq_eof.mp h
    have hsplit := List.takeWhile_append_dropWhile (p := isBlank) (l := c.rest)
    rw [hrest, List.append_nil] at hsplit
    rw [hsplit] at hblanks
    exact .nil hblanks
  | case2 c h ih =>
    obtain ⟨d, ds, hrest⟩ : ∃ d ds, c.rest.dropWhile isBlank = d :: ds :=
      List.exists_cons_of_ne_nil fun hnil => h (kind_next_eq_eof.mpr hnil)
    have hsplit : c.rest.takeWhile isBlank ++ (Piece.scan d ds).text ++ (Piece.scan d ds).rest =
        c.rest := by
      rw [List.append_assoc, Piece.text_append_rest, ← hrest, List.takeWhile_append_dropWhile]
    have hoffset : c.skipBlanks.offset = c.offset + utf8Length (c.rest.takeWhile isBlank) := by
      rw [utf8Length_of_blanks hblanks]
      rfl
    have hnext : c.next = (⟨(Piece.scan d ds).lexeme, c.skipBlanks.offset⟩,
        ⟨c.skipBlanks.offset + utf8Length (Piece.scan d ds).text, (Piece.scan d ds).rest⟩) := by
      rw [next, show c.skipBlanks.rest = d :: ds from hrest]
    have hlater := ih (blanks_of_takeWhile _)
    rw [hnext] at hlater ⊢
    have htiling := Tiling.cons (t := ⟨(Piece.scan d ds).lexeme, c.skipBlanks.offset⟩) hblanks
      hoffset (Piece.isWritten_scan ds (isBlank_of_dropWhile hrest)) (Piece.covers_scan d ds)
      (Piece.endsBefore_scan d ds) hlater
    rwa [hsplit] at htiling

namespace Tiling

variable {offset : Nat} {cs : List Char} {ts : List Token}

/-- **There is no other tiling**: what tiles characters are the tokens that are read from them.

**Proof sketch.** Induction on the tiling. After the blanks the scanner meets the characters of the
next token, which it takes as one piece (`Piece.scan_of_covers`). -/
theorem tokens_eq (h : Tiling offset cs ts) : (Cursor.mk offset cs).tokens = ts := by
  induction h with
  | @nil offset blanks hblanks =>
    have hrest := Cursor.rest_skipBlanks offset hblanks
      (by simp : ∀ c ∈ [].head?, isBlank c = false)
    rw [List.append_nil] at hrest
    rw [Cursor.tokens, if_pos (Cursor.kind_next_eq_eof.mpr hrest)]
  | @cons offset blanks text rest t ts hblanks hoffset hwritten hcovers hend _ ih =>
    obtain ⟨c, cs, heq⟩ : ∃ c cs, text ++ rest = c :: cs :=
      List.exists_cons_of_ne_nil (by simp [hcovers.ne_nil hwritten])
    obtain ⟨hblank, hscan⟩ := Piece.scan_of_covers hwritten hcovers heq hend
    have hstop : ∀ d ∈ (c :: cs).head?, isBlank d = false := by simpa using hblank
    have hskip : (Cursor.mk offset (blanks ++ text ++ rest)).skipBlanks = ⟨t.offset, c :: cs⟩ := by
      obtain ⟨htake, hdrop⟩ := span_append_of_stop isBlank hblanks hstop
      rw [List.append_assoc, heq, Cursor.skipBlanks, htake, hdrop, hoffset,
        Cursor.utf8Length_of_blanks hblanks]
    have hkind : (Cursor.mk offset (blanks ++ text ++ rest)).next.1.kind ≠ .eof := by
      rw [Ne, Cursor.kind_next_eq_eof, hskip]
      exact List.cons_ne_nil c cs
    rw [Cursor.tokens, if_neg hkind, Cursor.next, hskip]
    simp only [hscan, ih]

/-- Tokens of a tiling start at its offset or later. -/
lemma le_offset (h : Tiling offset cs ts) : ∀ t ∈ ts, offset ≤ t.offset := by
  induction h with
  | nil => simp
  | @cons offset blanks text rest t ts _ hoffset _ _ _ _ ih =>
    rw [List.forall_mem_cons]
    refine ⟨by omega, fun u hu => ?_⟩
    have hle := ih u hu
    omega

/-- Each token of a tiling starts after the one before it. -/
lemma pairwise_offset (h : Tiling offset cs ts) : ts.Pairwise (·.offset < ·.offset) := by
  induction h with
  | nil => exact .nil
  | @cons offset blanks text rest t ts _ _ hwritten hcovers _ hrest ih =>
    refine .cons (fun u hu => ?_) ih
    have hle := hrest.le_offset u hu
    have hpos : 0 < utf8Length text := by
      obtain ⟨c, cs, rfl⟩ := List.exists_cons_of_ne_nil (hcovers.ne_nil hwritten)
      exact Nat.lt_of_lt_of_le (Char.utf8Size_pos c) (Nat.le_add_right _ _)
    omega

end Tiling

/-! ## The tokens of a text -/

/-- A character **starts a token** if a lexeme that is not illegal is written with it first. -/
def StartsToken (c : Char) : Prop :=
  ∃ t : Lexeme, t.IsWritten ∧ t.kind ≠ .illegal ∧ t.chars.head? = some c

namespace Lexeme

variable {t : Lexeme} {c : Char}

/-- A written lexeme is the one that is scanned from its characters. -/
lemma exists_scan_eq (ht : t.IsWritten) (hc : t.chars.head? = some c) :
    ∃ cs, t.chars = c :: cs ∧ (Piece.scan c cs).lexeme = t := by
  obtain ⟨cs, hchars⟩ : ∃ cs, t.chars = c :: cs := List.head?_eq_some_iff.mp hc
  have heq : t.chars ++ [] = c :: cs := by rw [List.append_nil, hchars]
  exact ⟨cs, hchars, (Piece.scan_of_isWritten ht heq (by simp)).2.1⟩

/-- A lexeme is illegal exactly if its character is stray. -/
lemma kind_eq_illegal (ht : t.IsWritten) (hc : t.chars.head? = some c) :
    t.kind = .illegal ↔ IsStray c := by
  constructor
  · intro hkind
    have hillegal := ht
    rw [IsWritten, hkind] at hillegal
    obtain ⟨d, hstray, hliteral⟩ := hillegal
    rw [chars_of_kind_ne (by rw [hkind]; decide), hliteral, String.toList_ofList] at hc
    cases hc
    exact hstray
  · intro hstray
    obtain ⟨cs, -, hscan⟩ := exists_scan_eq ht hc
    rw [← hscan, Piece.scan_stray hstray]
    rfl

/-- A word has the kind that the table of reserved words gives to it. -/
lemma kind_of_word (ht : t.IsWritten) (hkind : t.kind ≠ .string) (hne : t.literal.toList ≠ [])
    (hall : ∀ d ∈ t.literal.toList, isWordChar d = true) : t.kind = .ofWord t.literal := by
  obtain ⟨c, cs, hliteral⟩ := List.exists_cons_of_ne_nil hne
  have hchars := chars_of_kind_ne hkind
  obtain ⟨cs', hchars', hscan⟩ := exists_scan_eq ht (by rw [hchars, hliteral]; rfl : _ = some c)
  have heq : t.literal.toList ++ [] = c :: cs' := by rw [List.append_nil, ← hchars, hchars']
  rw [← hscan, (Piece.scan_word hne hall heq (by simp)).2.1]

/-- A lexeme has the kind of a reserved word exactly if it is this word, and not a string. -/
lemma kind_eq_reserved (ht : t.IsWritten) {word : String} {kind : TokenKind}
    (h : (word, kind) ∈ TokenKind.reserved) :
    t.kind = kind ↔ t.kind ≠ .string ∧ t.literal = word := by
  have hwords : ∀ p ∈ TokenKind.reserved, p.1.toList ≠ [] ∧ p.1.toList.all isWordChar = true ∧
      TokenKind.ofWord p.1 = p.2 := by decide
  constructor
  · rintro rfl
    generalize hkind : t.kind = kind at h
    rw [IsWritten, hkind] at ht
    simp only [TokenKind.reserved, List.mem_cons, Prod.mk.injEq, List.not_mem_nil, or_false] at h
    rcases h with ⟨rfl, rfl⟩ | ⟨rfl, rfl⟩ | ⟨rfl, rfl⟩ | ⟨rfl, rfl⟩ | ⟨rfl, rfl⟩ | ⟨rfl, rfl⟩ |
      ⟨rfl, rfl⟩ | ⟨rfl, rfl⟩ <;> exact ⟨by decide, ht⟩
  · rintro ⟨hkind, rfl⟩
    obtain ⟨hne, hall, hword⟩ := hwords _ h
    exact (kind_of_word ht hkind hne (List.all_eq_true.mp hall)).trans hword

end Lexeme

/-- The first character of a piece is the first of its lexeme. -/
lemma Piece.head?_chars_scan {c : Char} (cs : List Char) (hblank : isBlank c = false) :
    (scan c cs).lexeme.chars.head? = some c := by
  have hsplit := text_append_rest c cs
  have hcovers := covers_scan c cs
  obtain ⟨d, ds, htext⟩ := List.exists_cons_of_ne_nil (hcovers.ne_nil (isWritten_scan cs hblank))
  rw [htext] at hsplit hcovers
  obtain rfl : d = c := by injection hsplit
  rcases hcovers with hchars | ⟨hkind, hopen, -⟩
  · rw [← hchars]
    rfl
  · obtain rfl : d = '"' := by injection hopen
    rw [Lexeme.chars, hkind]
    rfl

/-- The stray characters are those that are no blank and start no token. -/
lemma isStray_iff {c : Char} : IsStray c ↔ isBlank c = false ∧ ¬StartsToken c := by
  constructor
  · intro hstray
    refine ⟨hstray.1, ?_⟩
    rintro ⟨t, ht, hkind, hhead⟩
    exact hkind ((Lexeme.kind_eq_illegal ht hhead).mpr hstray)
  · rintro ⟨hblank, hstarts⟩
    have hwritten := Piece.isWritten_scan [] hblank
    have hhead := Piece.head?_chars_scan [] hblank
    refine Classical.byContradiction fun hstray => hstarts ⟨_, hwritten, fun h => ?_, hhead⟩
    exact hstray ((Lexeme.kind_eq_illegal hwritten hhead).mp h)

/-- **The tokens of a text are its only tiling.** They are what is read from it one by one, and the
end of the text is read after them for ever. Each of them starts after the one before it. Reserved
words have the kinds that are reserved for them, and a character is illegal exactly if it is no
blank and starts no other token. -/
theorem scan_tiling (source : String) :
    (∀ n, (Cursor.start source).token n = (scan source)[n]?.getD ⟨.eof, source.utf8ByteSize⟩) ∧
      (∀ tokens, Tiling 0 source.toList tokens ↔ tokens = scan source) ∧
      (scan source).Pairwise (·.offset < ·.offset) ∧
      ∀ t ∈ scan source,
        t.kind ≠ .eof ∧
        (∀ p ∈ TokenKind.reserved, t.kind = p.2 ↔ t.kind ≠ .string ∧ t.literal = p.1) ∧
        ∀ c ∈ t.chars.head?, t.kind = .illegal ↔ isBlank c = false ∧ ¬StartsToken c := by
  have htiling : Tiling 0 source.toList (scan source) := (Cursor.start source).tiling_tokens
  refine ⟨Cursor.token_start source, fun tokens => ⟨fun h => h.tokens_eq.symm, ?_⟩,
    htiling.pairwise_offset, ?_⟩
  · rintro rfl
    exact htiling
  · intro t ht
    have hwritten := Cursor.isWritten_of_mem_tokens _ t ht
    refine ⟨fun heof => ?_, fun p hp => Lexeme.kind_eq_reserved hwritten hp, fun c hc => ?_⟩
    · rw [Lexeme.IsWritten, heof] at hwritten
      exact hwritten
    · exact (Lexeme.kind_eq_illegal hwritten hc).trans isStray_iff

end QuoteLang
