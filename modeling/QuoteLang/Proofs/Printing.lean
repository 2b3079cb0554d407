import Mathlib.Data.List.Forall2
import QuoteLang.Expr.Printer
import QuoteLang.Proofs.Spelling.Complete

set_option relaxedAutoImplicit false
set_option autoImplicit false

/-!
# Printed texts

Texts that are put together from pieces, each of which is a spelling of its own. A piece is followed
by a character that ends every lexeme, such as a closing bracket, a comma or a space, so it is read
in the same way whatever comes after it.

## Main definitions

* `isStop` — the characters that end every lexeme.
* `Prints` — a text lays out some lexemes, whatever follows that ends the last of them.
* `Expr.PrintedAs` — a text prints an expression that stands in a place.

## Main results

* `Prints.append`, `Prints.enclosed` — pieces after one another, and between brackets.
* `Expr.PrintedAs.array`, `Expr.PrintedAs.hash` — lists of printed pieces.
* `Program.IsText.parse_eq` — a text of a program is read as the program.
-/

namespace QuoteLang

/-! ## First characters -/

/-- If all characters of a text have a property, it does not begin with a character without it. -/
lemma head_ne_of_forall {p : Char → Bool} {cs : List Char} {d : Char}
    (h : ∀ c ∈ cs, p c = true) (hd : p d = false) : ∀ c ∈ cs.head?, c ≠ d := by
  rintro c hc rfl
  rw [h c (List.mem_of_head? hc)] at hd
  cases hd

/-- A character that ends every lexeme: no letter, no digit, and not the second character of an
operator. -/
def isStop (c : Char) : Bool :=
  !isWordChar c && !c.isDigit && c != '='

/-- Every lexeme is over before a character that ends them all. -/
lemma Lexeme.endsBefore_of_isStop (t : Lexeme) {c : Char} (h : isStop c = true) :
    t.endsBefore c = true := by
  simp only [isStop, Bool.and_eq_true] at h
  obtain ⟨⟨hword, hdigit⟩, heq⟩ := h
  unfold endsBefore
  split
  all_goals first | exact hword | exact hdigit | exact heq | rfl

/-- A text begins with a character that ends every lexeme, if it has any character. -/
def Stops (cs : List Char) : Prop := ∀ c ∈ cs.head?, isStop c = true

/-- The end of a text ends every lexeme. -/
lemma Stops.nil : Stops [] := by
  simp [Stops]

/-- A text stops if its first character does. -/
lemma Stops.cons {c : Char} (h : isStop c = true) (cs : List Char) : Stops (c :: cs) := by
  simpa [Stops] using h

/-! ## Pieces of text -/

/-- One more lexeme at the front of a layout. -/
lemma Layout.lexeme_append {t : Lexeme} {us : List Lexeme} {rest : List Char} (h : Layout us rest)
    (hend : ∀ c ∈ rest.head?, t.endsBefore c = true) : Layout (t :: us) (t.chars ++ rest) :=
  @Layout.cons [] _ _ _ (List.forall_mem_nil _) hend h

/-- A text **prints** a list of lexemes: it lays them out, whatever follows that ends the last of
them. -/
def Prints (ts : List Lexeme) (cs : List Char) : Prop :=
  ∀ us rest, Layout us rest → Stops rest → Layout (ts ++ us) (cs ++ rest)

namespace Prints

variable {ts us : List Lexeme} {cs ds : List Char}

/-- What a text prints it lays out. -/
lemma layout (h : Prints ts cs) : Layout ts cs := by
  have hnil := h [] [] (.nil (List.forall_mem_nil _)) .nil
  rwa [List.append_nil, List.append_nil] at hnil

/-- The empty text prints nothing. -/
lemma nil : Prints [] [] := fun _ _ h _ => h

/-- The characters of a lexeme print it. -/
lemma lexeme (t : Lexeme) : Prints [t] t.chars :=
  fun _ _ h hstop => h.lexeme_append fun c hc => t.endsBefore_of_isStop (hstop c hc)

/-- Two pieces one after the other, if the second begins with a character that ends the first. -/
theorem append (hts : Prints ts cs) (hus : Prints us ds) {c : Char} (hc : c ∈ ds.head?)
    (hstop : isStop c = true) : Prints (ts ++ us) (cs ++ ds) := by
  intro vs rest hvs hrest
  -- Nothing but the first character of the second piece stands after the first piece.
  obtain ⟨ds', rfl⟩ : ∃ ds', ds = c :: ds' := by
    cases ds with
    | nil => cases hc
    | cons d ds' => exact ⟨ds', by simpa using hc⟩
  rw [List.append_assoc, List.append_assoc]
  exact hts _ _ (hus _ _ hvs hrest) (.cons hstop _)

/-- A blank in front of a piece. -/
lemma blank (h : Prints ts cs) : Prints ts (' ' :: cs) :=
  fun us rest hus hrest => (h us rest hus hrest).blank_cons (by decide)

/-- A lexeme in front of a piece that begins with a character which ends the lexeme. -/
lemma cons {t : Lexeme} (h : Prints ts cs) (hend : ∀ c ∈ cs.head?, t.endsBefore c = true) :
    Prints (t :: ts) (t.chars ++ cs) := by
  intro us rest hus hrest
  rw [List.append_assoc]
  refine (h us rest hus hrest).lexeme_append fun c hc => ?_
  cases cs with
  | nil => exact t.endsBefore_of_isStop (hrest c hc)
  | cons d ds => exact hend c hc

/-- A lexeme and a blank in front of a piece. -/
lemma cons_blank (t : Lexeme) (h : Prints ts cs) : Prints (t :: ts) (t.chars ++ ' ' :: cs) :=
  (lexeme t).append h.blank rfl (by decide)

/-- A piece with a closing bracket or a separator after it. -/
lemma append_lexeme {t : Lexeme} (h : Prints ts cs) {c : Char} (hc : c ∈ t.chars.head?)
    (hstop : isStop c = true) : Prints (ts ++ [t]) (cs ++ t.chars) :=
  h.append (lexeme t) hc hstop

/-- A piece between brackets. -/
theorem enclosed (h : Prints ts cs) (opening closing : Lexeme)
    (hopen : ∀ c, opening.endsBefore c = true) {c : Char} (hc : c ∈ closing.chars.head?)
    (hstop : isStop c = true) :
    Prints (opening :: ts ++ [closing]) (opening.chars ++ cs ++ closing.chars) :=
  (h.cons fun c _ => hopen c).append_lexeme hc hstop

/-- A piece in parentheses. -/
lemma inParens (h : Prints ts cs) : Prints (inParens ts) ('(' :: cs ++ [')']) :=
  h.enclosed TokenKind.lparen.lexeme TokenKind.rparen.lexeme (fun _ => rfl) rfl (by decide)

/-- A piece in brackets. -/
lemma inBrackets (h : Prints ts cs) : Prints (inBrackets ts) ('[' :: cs ++ [']']) :=
  h.enclosed TokenKind.lbracket.lexeme TokenKind.rbracket.lexeme (fun _ => rfl) rfl (by decide)

/-- A piece in braces. -/
lemma inBraces (h : Prints ts cs) : Prints (inBraces ts) ('{' :: cs ++ ['}']) :=
  h.enclosed TokenKind.lbrace.lexeme TokenKind.rbrace.lexeme (fun _ => rfl) rfl (by decide)

/-- Two pieces with a comma and a space between them. -/
lemma comma (hts : Prints ts cs) (hus : Prints us ds) :
    Prints (ts ++ [TokenKind.comma.lexeme] ++ us) (cs ++ ',' :: ' ' :: ds) := by
  rw [List.append_assoc]
  exact hts.append (hus.blank.cons (t := TokenKind.comma.lexeme) fun _ _ => rfl) rfl (by decide)

end Prints

/-! ## Printed expressions -/

/-- A text prints an expression that stands in a place: it prints a spelling of it. -/
def Expr.PrintedAs (p : Place) (e : Expr) (text : String) : Prop :=
  ∃ ts, Spells true (.placed p e) ts ∧ Prints ts text.toList

/-- A text prints an entry of a hash: a key, a colon and a value. -/
def EntryPrintedAs (pair : Expr × Expr) (text : String) : Prop :=
  ∃ ks vs, Spells true (.placed .free pair.1) ks ∧ Spells true (.placed .free pair.2) vs ∧
    Prints (ks ++ TokenKind.colon.lexeme :: vs) text.toList

/-- A key and a value with a colon between them. -/
lemma EntryPrintedAs.colon {pair : Expr × Expr} {key value : String}
    (hkey : pair.1.PrintedAs .free key) (hvalue : pair.2.PrintedAs .free value) :
    EntryPrintedAs pair (key ++ ":" ++ value) := by
  obtain ⟨ks, hks, hkey⟩ := hkey
  obtain ⟨vs, hvs, hvalue⟩ := hvalue
  refine ⟨ks, vs, hks, hvs, ?_⟩
  rw [String.toList_append, String.toList_append, List.append_assoc]
  exact hkey.append (hvalue.cons (t := TokenKind.colon.lexeme) fun _ _ => rfl) rfl (by decide)

/-- What binds as tightly as an index needs no parentheses anywhere. -/
lemma Place.admits_of_level {e : Expr} (h : e.level = .index) (p : Place) : p.Admits e := by
  have hindex : Level.index.rank = 7 := rfl
  unfold Admits
  rw [h]
  cases p with
  | leftOf op | rightOf op =>
    have hop := op.rank_level_bounds
    simp only [least]
    omega
  | _ => simp [least, Level.rank]

/-- An integer that is not negative is shown by its decimal digits. -/
lemma renderInt_of_nonneg {n : Int64} (h : 0 ≤ n.toInt) :
    renderInt n = String.ofList (Nat.toDigits 10 n.toInt.toNat) := by
  obtain ⟨k, hk⟩ := Int.eq_ofNat_of_zero_le h
  rw [renderInt, hk]
  rfl

/-- An integer that is negative is shown as a minus sign and what it is without the sign. The
smallest integer has no such counterpart. -/
lemma renderInt_of_neg {n : Int64} (h : n.toInt < 0) (hneg : (-n).toInt = -n.toInt) :
    renderInt n = "-" ++ renderInt (-n) := by
  rw [renderInt, renderInt, hneg, Int.toString_eq_repr, Int.toString_eq_repr, Int.repr_eq_if,
    Int.repr_eq_if, if_neg (by omega), if_pos (by omega)]

/-- The text of an integer that is not negative is a run of digits. -/
lemma isDigits_renderInt {n : Int64} (h : 0 ≤ n.toInt) : IsDigits (renderInt n) := by
  rw [renderInt_of_nonneg h, IsDigits, String.toList_ofList]
  exact ⟨Nat.toDigits_ne_nil, fun c hc => Nat.isDigit_of_mem_toDigits (by decide) (by decide) hc⟩

namespace Expr.PrintedAs

variable {p : Place}

/-- A blank in front of a text does not matter. -/
lemma blank {e : Expr} {text : String} (h : PrintedAs p e text) :
    PrintedAs p e (" " ++ text) := by
  obtain ⟨ts, hts, hprints⟩ := h
  refine ⟨ts, hts, ?_⟩
  rw [String.toList_append]
  exact hprints.blank

/-- A name prints itself. -/
lemma ident {name : String} (h : IsName name) : PrintedAs p (.ident name) name :=
  ⟨_, .bare (p.admits_of_level rfl) (.ident h), Prints.lexeme (nameLexeme name)⟩

/-- A truth value is printed as a word. -/
lemma bool (b : Bool) : PrintedAs p (.bool b) (renderBool b) := by
  refine ⟨_, .bare (p.admits_of_level rfl) (.bool b), ?_⟩
  cases b
  · exact .lexeme TokenKind.kwFalse.lexeme
  · exact .lexeme TokenKind.kwTrue.lexeme

/-- An integer that is not negative is printed in decimal digits. -/
lemma int {n : Int64} (h : 0 ≤ n.toInt) : PrintedAs p (.int n) (renderInt n) := by
  have hvalue : n.toInt = Nat.ofDigitChars 10 (renderInt n).toList 0 := by
    rw [renderInt_of_nonneg h, String.toList_ofList, Nat.ofDigitChars_ten_toDigits,
      Int.toNat_of_nonneg h]
  exact ⟨_, .bare (p.admits_of_level rfl) (.int (isDigits_renderInt h) hvalue),
    Prints.lexeme ⟨.int, renderInt n⟩⟩

/-- What is printed without parentheses is printed with parentheses in every place. -/
lemma paren {e : Expr} {text : String} (h : PrintedAs .free e text) :
    PrintedAs p e ("(" ++ text ++ ")") := by
  obtain ⟨ts, hts, hprints⟩ := h
  refine ⟨_, .paren hts, ?_⟩
  rw [String.toList_append, String.toList_append]
  exact hprints.inParens

/-- An operator is printed in front of its operand. After `!` there is no `=`, with which it would
be read as another operator. -/
lemma unary {op : UnaryOp} {e : Expr} {text : String} (h : PrintedAs .operand e text)
    (hhead : ∀ c ∈ text.toList.head?, c ≠ '=') :
    PrintedAs .free (.unary op e) (op.symbol ++ text) := by
  obtain ⟨ts, hts, hprints⟩ := h
  refine ⟨_, .bare (Nat.zero_le _) (.unary hts), ?_⟩
  have hend : ∀ c ∈ text.toList.head?, op.kind.lexeme.endsBefore c = true := by
    intro c hc
    cases op
    · exact bne_iff_ne.mpr (hhead c hc)
    · rfl
  have hchars : op.kind.lexeme.chars = op.symbol.toList := by cases op <;> rfl
  rw [String.toList_append, ← hchars]
  exact hprints.cons hend

/-- An operator is printed between its operands, with a space on either side. -/
lemma binary {op : BinaryOp} {l r : Expr} {left right : String}
    (hl : PrintedAs (.leftOf op) l left) (hr : PrintedAs (.rightOf op) r right) :
    PrintedAs .free (.binary op l r) (left ++ " " ++ op.symbol ++ " " ++ right) := by
  obtain ⟨ls, hls, hleft⟩ := hl
  obtain ⟨rs, hrs, hright⟩ := hr
  refine ⟨_, .bare (Nat.zero_le _) (.binary hls hrs), ?_⟩
  have hchars : op.kind.lexeme.chars = op.symbol.toList := by cases op <;> rfl
  have htext : (left ++ " " ++ op.symbol ++ " " ++ right).toList =
      left.toList ++ ' ' :: (op.kind.lexeme.chars ++ ' ' :: right.toList) := by
    simp [String.toList_append, hchars]
  rw [htext]
  exact hleft.append (hright.cons_blank _).blank rfl (by decide)

/-- The first text of a list is followed by a comma and a space. -/
lemma toList_renderList_cons (first second : String) (texts : List String) :
    (renderList (first :: second :: texts)).toList =
      first.toList ++ ',' :: ' ' :: (renderList (second :: texts)).toList := by
  rw [renderList, String.intercalate_cons_cons, String.toList_append, String.toList_append,
    List.append_assoc]
  rfl

/-- Printed expressions with commas between them. -/
lemma exprs {es : List Expr} {texts : List String}
    (h : List.Forall₂ (PrintedAs .free) es texts) :
    ∃ ts, Spells true (.exprs es) ts ∧ Prints ts (renderList texts).toList := by
  induction h with
  | nil => exact ⟨[], .exprsNil, .nil⟩
  | @cons e text es texts he hes ih =>
    obtain ⟨ts, hts, hprints⟩ := he
    cases hes with
    | nil =>
      refine ⟨ts ++ [] ++ [], .exprsCons (.inl rfl) (by simp) hts .exprsNil, ?_⟩
      rw [List.append_nil, List.append_nil, renderList, String.intercalate_singleton]
      exact hprints
    | cons he' hes' =>
      obtain ⟨us, hus, hrest⟩ := ih
      refine ⟨_, .exprsCons (.inr rfl) (by simp) hts hus, ?_⟩
      rw [toList_renderList_cons]
      exact hprints.comma hrest

/-- Printed entries with commas between them. -/
lemma entries {pairs : List (Expr × Expr)} {texts : List String}
    (h : List.Forall₂ EntryPrintedAs pairs texts) :
    ∃ ts, Spells true (.entries pairs) ts ∧ Prints ts (renderList texts).toList := by
  induction h with
  | nil => exact ⟨[], .entriesNil, .nil⟩
  | @cons pair text pairs texts he hes ih =>
    obtain ⟨key, value⟩ := pair
    obtain ⟨ks, vs, hks, hvs, hprints⟩ := he
    cases hes with
    | nil =>
      refine ⟨_, .entriesCons (.inl rfl) (fun _ => rfl) hks hvs .entriesNil, ?_⟩
      rw [List.append_nil, List.append_nil, renderList, String.intercalate_singleton]
      exact hprints
    | cons he' hes' =>
      obtain ⟨us, hus, hrest⟩ := ih
      refine ⟨_, .entriesCons (.inr rfl) (by simp) hks hvs hus, ?_⟩
      rw [toList_renderList_cons]
      exact hprints.comma hrest

/-- An array is printed as its items in brackets. -/
theorem array {items : List Expr} {texts : List String}
    (h : List.Forall₂ (PrintedAs .free) items texts) :
    PrintedAs p (.array items) ("[" ++ renderList texts ++ "]") := by
  obtain ⟨ts, hts, hprints⟩ := exprs h
  refine ⟨_, .bare (p.admits_of_level rfl) (.array hts), ?_⟩
  rw [String.toList_append, String.toList_append]
  exact hprints.inBrackets

/-- A call is printed as the callee and the arguments in parentheses. -/
lemma call {f : Expr} {args : List Expr} {callee : String} {texts : List String}
    (hf : PrintedAs .callee f callee) (hargs : List.Forall₂ (PrintedAs .free) args texts) :
    PrintedAs p (.call f args) (callee ++ "(" ++ renderList texts ++ ")") := by
  obtain ⟨fs, hfs, hcallee⟩ := hf
  obtain ⟨as, has, hprints⟩ := exprs hargs
  refine ⟨_, .bare (p.admits_of_level rfl) (.call hfs has), ?_⟩
  have htext : (callee ++ "(" ++ renderList texts ++ ")").toList =
      callee.toList ++ ('(' :: (renderList texts).toList ++ [')']) := by
    simp [String.toList_append]
  rw [htext]
  exact hcallee.append hprints.inParens rfl (by decide)

/-- An index is printed as what is indexed and the position in brackets. -/
lemma index {b i : Expr} {base position : String} (hb : PrintedAs .base b base)
    (hi : PrintedAs .free i position) :
    PrintedAs p (.index b i) (base ++ "[" ++ position ++ "]") := by
  obtain ⟨bs, hbs, hbase⟩ := hb
  obtain ⟨is, his, hposition⟩ := hi
  refine ⟨_, .bare (p.admits_of_level rfl) (.index hbs his), ?_⟩
  have htext : (base ++ "[" ++ position ++ "]").toList =
      base.toList ++ ('[' :: position.toList ++ [']']) := by
    simp [String.toList_append]
  rw [htext]
  exact hbase.append hposition.inBrackets rfl (by decide)

/-- A hash is printed as its entries in braces. -/
theorem hash {pairs : List (Expr × Expr)} {texts : List String}
    (h : List.Forall₂ EntryPrintedAs pairs texts) :
    PrintedAs p (.hash pairs) ("\x7b" ++ renderList texts ++ "\x7d") := by
  obtain ⟨ts, hts, hprints⟩ := entries h
  refine ⟨_, .bare (p.admits_of_level rfl) (.hash hts), ?_⟩
  rw [String.toList_append, String.toList_append]
  exact hprints.inBraces

end Expr.PrintedAs

/-! ## Texts of programs -/

/-- What prints an expression is a text of the program that consists of the expression. -/
lemma Expr.PrintedAs.isText {e : Expr} {text : String} (h : e.PrintedAs .free text) :
    Program.IsText [.expr e] text := by
  obtain ⟨ts, hts, hprints⟩ := h
  refine ⟨ts ++ [] ++ [], .stmtsCons (.inl rfl) (fun _ _ => rfl) (.exprStmt hts) .stmtsNil, ?_⟩
  rw [List.append_nil, List.append_nil]
  exact hprints.layout

/-- A text of a program is read as the program. -/
theorem Program.IsText.parse_eq {program : Program} {source : String} (h : program.IsText source) :
    parse source = .ok program := by
  obtain ⟨ts, hspells, hlayout⟩ := h
  rw [parse_eq_ok_iff, Layout.lexemes_eq hlayout hspells.isWritten]
  exact Program.ofLexemes_of_isSpelling hspells

end QuoteLang
