set_option relaxedAutoImplicit false
set_option autoImplicit false

/-!
# Tokens

The lexical categories of the language, the reserved words, and tokens as they stand in a source
text.

## Main definitions

* `TokenKind` — the closed set of lexical categories, with the upper-case `TokenKind.name` that
  messages use.
* `TokenKind.ofWord` — the kind of a word: a reserved word has its own kind, any other is an
  identifier.
* `Lexeme` — a kind with its literal text: all that the grammar looks at.
* `Token` — a lexeme at the byte offset where it starts.

## Main results

* `TokenKind.mem_all` — `TokenKind.all` leaves no kind out.
* `TokenKind.ofWord_mem` — a word is an identifier or one of the reserved words.
-/

namespace QuoteLang

/-! ## Kinds -/

/-- The lexical category of a token. -/
inductive TokenKind
  | illegal
  | eof
  | ident
  | int
  | string
  | assign
  | plus
  | minus
  | bang
  | asterisk
  | slash
  | lt
  | gt
  | eq
  | notEq
  | comma
  | semicolon
  | colon
  | lparen
  | rparen
  | lbrace
  | rbrace
  | lbracket
  | rbracket
  | kwFn
  | kwLet
  | kwIf
  | kwElse
  | kwTrue
  | kwFalse
  | kwReturn
  | kwMacro
deriving DecidableEq

namespace TokenKind

/-- The name of a kind, as error messages and token listings show it. -/
def name : TokenKind → String
  | illegal => "ILLEGAL"
  | eof => "EOF"
  | ident => "IDENT"
  | int => "INT"
  | string => "STRING"
  | assign => "ASSIGN"
  | plus => "PLUS"
  | minus => "MINUS"
  | bang => "BANG"
  | asterisk => "ASTERISK"
  | slash => "SLASH"
  | lt => "LT"
  | gt => "GT"
  | eq => "EQ"
  | notEq => "NOT_EQ"
  | comma => "COMMA"
  | semicolon => "SEMICOLON"
  | colon => "COLON"
  | lparen => "LPAREN"
  | rparen => "RPAREN"
  | lbrace => "LBRACE"
  | rbrace => "RBRACE"
  | lbracket => "LBRACKET"
  | rbracket => "RBRACKET"
  | kwFn => "FUNCTION"
  | kwLet => "LET"
  | kwIf => "IF"
  | kwElse => "ELSE"
  | kwTrue => "TRUE"
  | kwFalse => "FALSE"
  | kwReturn => "RETURN"
  | kwMacro => "MACRO"

/-- Every kind, in the order of the declaration. -/
def all : List TokenKind :=
  [illegal, eof, ident, int, string, assign, plus, minus, bang, asterisk, slash, lt, gt, eq, notEq,
    comma, semicolon, colon, lparen, rparen, lbrace, rbrace, lbracket, rbracket, kwFn, kwLet, kwIf,
    kwElse, kwTrue, kwFalse, kwReturn, kwMacro]

/-- The list of all kinds leaves none out. -/
theorem mem_all (kind : TokenKind) : kind ∈ all := by
  cases kind <;> decide

/-- The reserved words and the kind each of them has. -/
def reserved : List (String × TokenKind) :=
  [("fn", kwFn), ("let", kwLet), ("if", kwIf), ("else", kwElse), ("true", kwTrue),
    ("false", kwFalse), ("return", kwReturn), ("macro", kwMacro)]

/-- The kind of a word: its own kind if the word is reserved, and an identifier otherwise. -/
def ofWord (word : String) : TokenKind :=
  (reserved.lookup word).getD ident

/-- A word is an identifier or one of the eight reserved words. -/
theorem ofWord_mem (word : String) :
    ofWord word ∈ [ident, kwFn, kwLet, kwIf, kwElse, kwTrue, kwFalse, kwReturn, kwMacro] := by
  unfold ofWord reserved
  simp only [List.lookup_cons, List.lookup_nil]
  repeat' split
  all_goals simp

end TokenKind

/-! ## Tokens -/

/-- A kind with its literal text. The literal of a string is the text between its quotes, and that
of the end of the text is empty. -/
structure Lexeme where
  /-- The lexical category. -/
  kind : TokenKind
  /-- The literal text. -/
  literal : String
deriving DecidableEq

/-- The lexeme that stands for the end of the text. -/
def Lexeme.eof : Lexeme := ⟨.eof, ""⟩

/-- A lexeme together with the byte offset at which it starts. -/
structure Token extends Lexeme where
  /-- The number of bytes of the text before the token. -/
  offset : Nat
deriving DecidableEq

/-- The listing form of a token: its kind, and its literal in parentheses. -/
def Token.render (t : Token) : String :=
  t.kind.name ++ "(" ++ t.literal ++ ")"

end QuoteLang
