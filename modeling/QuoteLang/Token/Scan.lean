import QuoteLang.Token

set_option relaxedAutoImplicit false
set_option autoImplicit false

/-!
# Scanning

Cutting a source text into tokens. Blanks (space, tab, line feed, carriage return) separate
tokens; the longest possible piece of text is taken for each token; a character that starts no
token is a token of its own, of kind `TokenKind.illegal`.

## Main definitions

* `Piece.scan` — the piece of text that starts at a character which is not blank.
* `Cursor` — a reading position in a text; `Cursor.next` reads one token.
* `Cursor.tokens` — every token from a position to the end of the text.
* `scan` — every token of a text.

## Main results

* `utf8Length_append`, `utf8Length_ofList` — bytes add up, and are those of the text.
* `Piece.text_append_rest` — a piece and what follows it make up the text that was read.
* `Cursor.next_rest_lt` — reading a token other than the end of the text moves strictly forward.
-/

namespace QuoteLang

/-! ## Character classes -/

/-- Space, tab, line feed and carriage return separate tokens and mean nothing else. -/
def isBlank (c : Char) : Bool :=
  c == ' ' || c == '\t' || c == '\n' || c == '\r'

/-- Words consist of the letters `A` to `Z` and `a` to `z` and the underscore. -/
def isWordChar (c : Char) : Bool :=
  c.isAlpha || c == '_'

/-- A string runs up to the next double quote. -/
def isQuote (c : Char) : Bool :=
  c == '"'

/-- The kind of a single punctuation character. A character that starts no token is illegal. -/
def symbolKind (c : Char) : TokenKind :=
  match c with
  | '=' => .assign
  | '!' => .bang
  | '+' => .plus
  | '-' => .minus
  | '*' => .asterisk
  | '/' => .slash
  | '<' => .lt
  | '>' => .gt
  | ',' => .comma
  | ';' => .semicolon
  | ':' => .colon
  | '(' => .lparen
  | ')' => .rparen
  | '{' => .lbrace
  | '}' => .rbrace
  | '[' => .lbracket
  | ']' => .rbracket
  | _ => .illegal

/-- The number of bytes that a list of characters takes in a text. -/
def utf8Length : List Char → Nat
  | [] => 0
  | c :: cs => c.utf8Size + utf8Length cs

/-- The bytes of two texts add up. -/
theorem utf8Length_append (as bs : List Char) :
    utf8Length (as ++ bs) = utf8Length as + utf8Length bs := by
  induction as with
  | nil => simp [utf8Length]
  | cons c cs ih => simp [utf8Length, ih, Nat.add_assoc]

/-- The bytes of the characters of a text are the bytes of the text. -/
theorem utf8Length_ofList (cs : List Char) : utf8Length cs = (String.ofList cs).utf8ByteSize := by
  induction cs with
  | nil => rfl
  | cons c cs ih =>
    have hsplit : String.ofList (c :: cs) = String.singleton c ++ String.ofList cs := by
      rw [String.singleton_eq_ofList, ← String.ofList_append]
      rfl
    rw [utf8Length, ih, hsplit, String.utf8ByteSize_append, String.utf8ByteSize_singleton]

/-! ## Pieces -/

/-- A piece of text that makes up one token: the lexeme it stands for, the characters it covers,
and the characters after it. -/
structure Piece where
  /-- What the piece stands for. -/
  lexeme : Lexeme
  /-- The characters that the piece covers, the quotes of a string included. -/
  text : List Char
  /-- The characters after the piece. -/
  rest : List Char

namespace Piece

/-- The piece whose text is its literal. -/
def plain (kind : TokenKind) (text rest : List Char) : Piece :=
  ⟨⟨kind, String.ofList text⟩, text, rest⟩

/-- The longest word that starts with `c`. -/
def word (c : Char) (cs : List Char) : Piece :=
  let text := c :: cs.takeWhile isWordChar
  plain (.ofWord (String.ofList text)) text (cs.dropWhile isWordChar)

/-- The longest run of digits that starts with `c`. -/
def digits (c : Char) (cs : List Char) : Piece :=
  plain .int (c :: cs.takeWhile Char.isDigit) (cs.dropWhile Char.isDigit)

/-- The string whose opening quote has been read. It ends at the next quote, or at the end of the
text if there is none; nothing inside it is an escape. -/
def quoted (cs : List Char) : Piece :=
  let content := cs.takeWhile (!isQuote ·)
  let after := cs.dropWhile (!isQuote ·)
  ⟨⟨.string, String.ofList content⟩, '"' :: (content ++ after.take 1), after.drop 1⟩

/-- The piece that starts at `c`, a character that is not blank, with `cs` after it. -/
def scan (c : Char) (cs : List Char) : Piece :=
  if isWordChar c then word c cs
  else if c.isDigit then digits c cs
  else if isQuote c then quoted cs
  else
    match c, cs with
    | '=', '=' :: rest => plain .eq ['=', '='] rest
    | '!', '=' :: rest => plain .notEq ['!', '='] rest
    | c, rest => plain (symbolKind c) [c] rest

/-- A piece and the characters after it make up the text that was read. -/
theorem text_append_rest (c : Char) (cs : List Char) :
    (scan c cs).text ++ (scan c cs).rest = c :: cs := by
  unfold scan
  split
  · simp [word, plain]
  split
  · simp [digits, plain]
  split
  · rename_i h
    simp only [isQuote, beq_iff_eq] at h
    simp only [quoted, h, List.cons_append, List.append_assoc, List.take_append_drop,
      List.takeWhile_append_dropWhile]
  · split <;> simp [plain]

/-- Every piece covers a character, so fewer characters are left after it. -/
theorem rest_length_lt (c : Char) (cs : List Char) :
    (scan c cs).rest.length < (c :: cs).length := by
  have hlen := congrArg List.length (text_append_rest c cs)
  have hpos : 0 < (scan c cs).text.length := by
    unfold scan word digits quoted plain
    repeat' split
    all_goals simp
  simp only [List.length_append] at hlen
  omega

end Piece

/-! ## Reading positions -/

/-- A reading position in a text: the bytes before it and the characters after it. -/
structure Cursor where
  /-- The number of bytes read so far. -/
  offset : Nat
  /-- The characters not yet read. -/
  rest : List Char

namespace Cursor

/-- The position at the start of a text. -/
def start (source : String) : Cursor :=
  ⟨0, source.toList⟩

/-- The position after the blanks that follow. Each blank takes one byte. -/
def skipBlanks (c : Cursor) : Cursor :=
  ⟨c.offset + (c.rest.takeWhile isBlank).length, c.rest.dropWhile isBlank⟩

/-- Reads one token, and gives the position after it. At the end of the text it reads an `eof`
token, as often as it is asked to. -/
def next (c : Cursor) : Token × Cursor :=
  match c.skipBlanks.rest with
  | [] => (⟨.eof, c.skipBlanks.offset⟩, c.skipBlanks)
  | ch :: cs =>
    let p := Piece.scan ch cs
    (⟨p.lexeme, c.skipBlanks.offset⟩, ⟨c.skipBlanks.offset + utf8Length p.text, p.rest⟩)

/-- Reading a token other than the end of the text moves strictly forward. -/
theorem next_rest_lt (c : Cursor) (h : c.next.1.kind ≠ .eof) :
    c.next.2.rest.length < c.rest.length := by
  unfold next at h ⊢
  have hskip : c.skipBlanks.rest.length ≤ c.rest.length :=
    (List.dropWhile_sublist _).length_le
  split
  · rename_i heq
    simp [heq, Lexeme.eof] at h
  · rename_i ch cs heq
    have hlt := Piece.rest_length_lt ch cs
    rw [heq] at hskip
    simp only at *
    omega

/-- The tokens from a position to the end of the text, the final `eof` left out. -/
def tokens (c : Cursor) : List Token :=
  if c.next.1.kind = .eof then []
  else c.next.1 :: c.next.2.tokens
termination_by c.rest.length
decreasing_by exact next_rest_lt c ‹_›

end Cursor

/-- The tokens of a text, the final `eof` left out. -/
def scan (source : String) : List Token :=
  (Cursor.start source).tokens

end QuoteLang
