import Mathlib.Algebra.Group.Nat.Defs
import Mathlib.Tactic.SplitIfs

set_option relaxedAutoImplicit false
set_option autoImplicit false

/-!
# The order of texts

Texts are ordered by the code points of their characters. The bytes of their UTF-8 encodings are
ordered in the same way. An encoding is a first byte with some continuation bytes, each of which
carries six bits of the code point. The first byte grows with the code point, and where it is the
same for two characters, they have as many continuation bytes, and the first of these that differ
decide.

## Main definitions

* `utf8Bytes` — the bytes of the encoding of a text.
* `firstByte`, `continuation` — the first byte and the other bytes for a code point.

## Main results

* `utf8EncodeChar_append_lt` — the encodings of two characters are ordered as the characters,
  whatever follows them.
* `utf8Bytes_lt_iff` — the bytes of two texts are ordered as the texts.
-/

namespace QuoteLang

/-! ## Bytes of characters -/

/-- The first byte of the encoding of a code point. -/
def firstByte (m : Nat) : Nat :=
  if m ≤ 127 then m
  else if m ≤ 2047 then m / 64 + 192
  else if m ≤ 65535 then m / 4096 + 224
  else m / 262144 + 240

/-- The number of bytes after the first. -/
def continuationCount (m : Nat) : Nat :=
  if m ≤ 127 then 0 else if m ≤ 2047 then 1 else if m ≤ 65535 then 2 else 3

/-- Continuation bytes, the last of which carries the lowest six bits. -/
def continuation (m : Nat) : Nat → List UInt8
  | 0 => []
  | count + 1 => UInt8.ofNat (m / 64 ^ count % 64 + 128) :: continuation m count

/-- A character is encoded by its first byte and the continuation bytes. -/
lemma utf8EncodeChar_eq (c : Char) :
    String.utf8EncodeChar c =
      UInt8.ofNat (firstByte c.val.toNat) ::
        continuation c.val.toNat (continuationCount c.val.toNat) := by
  have hbound : c.val.toNat < 1114112 := by
    rcases c.valid with h | h <;> omega
  rw [String.utf8EncodeChar, firstByte, continuationCount]
  generalize c.val.toNat = m at *
  split_ifs
  · rfl
  · rw [Nat.mod_eq_of_lt (show m / 64 < 32 by omega)]
    simp [continuation]
  · rw [Nat.mod_eq_of_lt (show m / 4096 < 16 by omega)]
    simp [continuation]
  · rw [Nat.mod_eq_of_lt (show m / 262144 < 8 by omega)]
    simp [continuation]

/-- The first byte is a byte. -/
lemma firstByte_lt {m : Nat} (h : m < 1114112) : firstByte m < 256 := by
  unfold firstByte
  split_ifs <;> omega

/-- **The first byte grows** with the code point. Where it stays the same, all bits are the same but
those that the continuation bytes carry. -/
theorem firstByte_lt_or_eq {m n : Nat} (h : m < n) :
    firstByte m < firstByte n ∨
      firstByte m = firstByte n ∧ continuationCount m = continuationCount n ∧
        m / 64 ^ continuationCount m = n / 64 ^ continuationCount m := by
  unfold firstByte continuationCount
  split_ifs <;> omega

/-- Lists of bytes are ordered by their first bytes, and by the others if these are the same. -/
lemma ofNat_cons_lt_iff {a b : Nat} (ha : a < 256) (hb : b < 256) {bs cs : List UInt8} :
    UInt8.ofNat a :: bs < UInt8.ofNat b :: cs ↔ a < b ∨ a = b ∧ bs < cs := by
  rw [List.cons_lt_cons_iff, UInt8.lt_iff_toNat_lt, ← UInt8.toNat_inj, UInt8.toNat_ofNat_of_lt' ha,
    UInt8.toNat_ofNat_of_lt' hb]

/-- **Continuation bytes keep the order** of numbers that differ only in the bits that they
carry. -/
theorem continuation_append_lt {m n count : Nat} (h : m < n)
    (heq : m / 64 ^ count = n / 64 ^ count) (bs cs : List UInt8) :
    continuation m count ++ bs < continuation n count ++ cs := by
  induction count with
  | zero => simp at heq; omega
  | succ count ih =>
    have hdiv : m / 64 ^ count / 64 = n / 64 ^ count / 64 := by
      rwa [Nat.div_div_eq_div_mul, Nat.div_div_eq_div_mul, ← Nat.pow_succ]
    have hle : m / 64 ^ count ≤ n / 64 ^ count := Nat.div_le_div_right (Nat.le_of_lt h)
    refine (ofNat_cons_lt_iff (by omega) (by omega)).mpr ?_
    by_cases hsame : m / 64 ^ count = n / 64 ^ count
    · exact .inr ⟨by rw [hsame], ih hsame⟩
    · exact .inl (by omega)

/-- **Encodings keep the order of characters**, whatever follows them. -/
theorem utf8EncodeChar_append_lt {c d : Char} (h : c < d) (bs cs : List UInt8) :
    String.utf8EncodeChar c ++ bs < String.utf8EncodeChar d ++ cs := by
  have hlt : c.val.toNat < d.val.toNat := h
  have hbound : d.val.toNat < 1114112 := by
    rcases d.valid with h | h <;> omega
  rw [utf8EncodeChar_eq, utf8EncodeChar_eq, List.cons_append, List.cons_append,
    ofNat_cons_lt_iff (firstByte_lt (by omega)) (firstByte_lt hbound)]
  refine (firstByte_lt_or_eq hlt).imp_right fun ⟨hfirst, hcount, hbits⟩ => ⟨hfirst, ?_⟩
  rw [← hcount]
  exact continuation_append_lt hlt hbits bs cs

/-! ## Bytes of texts -/

/-- The bytes of the UTF-8 encoding of a text. -/
def utf8Bytes (s : String) : List UInt8 :=
  s.toUTF8.data.toList

/-- The bytes of a text are those of its characters. -/
lemma utf8Bytes_eq (s : String) : utf8Bytes s = s.toList.flatMap String.utf8EncodeChar := by
  obtain ⟨cs, rfl⟩ : ∃ cs, s = String.ofList cs := ⟨s.toList, String.ofList_toList.symm⟩
  rw [utf8Bytes, String.toUTF8_eq_toByteArray, String.toByteArray_ofList, String.toList_ofList,
    List.utf8Encode, List.toList_data_toByteArray]

/-- The encodings of lists of characters are ordered as the lists. -/
lemma flatMap_utf8EncodeChar_lt {cs ds : List Char} (h : cs < ds) :
    cs.flatMap String.utf8EncodeChar < ds.flatMap String.utf8EncodeChar := by
  induction cs generalizing ds with
  | nil =>
    cases ds with
    | nil => exact absurd h (List.lt_irrefl [])
    | cons d ds =>
      rw [List.flatMap_nil, List.flatMap_cons, utf8EncodeChar_eq]
      exact List.nil_lt_cons _ _
  | cons c cs ih =>
    cases ds with
    | nil => exact absurd h (List.not_lt_nil _)
    | cons d ds =>
      rw [List.flatMap_cons, List.flatMap_cons]
      rcases List.cons_lt_cons_iff.mp h with hlt | ⟨rfl, hrest⟩
      · exact utf8EncodeChar_append_lt hlt _ _
      · exact List.append_left_lt (ih hrest)

/-- **The bytes of texts are ordered as the texts.** -/
theorem utf8Bytes_lt_iff {s t : String} : utf8Bytes s < utf8Bytes t ↔ s < t := by
  have mono {s t : String} (h : s < t) : utf8Bytes s < utf8Bytes t := by
    rw [utf8Bytes_eq, utf8Bytes_eq]
    exact flatMap_utf8EncodeChar_lt (String.lt_iff.mp h)
  refine ⟨fun h => ?_, mono⟩
  rcases Std.lt_trichotomy s t with hlt | rfl | hlt
  · exact hlt
  · exact absurd h (List.lt_irrefl _)
  · exact absurd (List.lt_trans h (mono hlt)) (List.lt_irrefl _)

end QuoteLang
