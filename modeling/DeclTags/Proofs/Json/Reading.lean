import DeclTags.Json.Quoted
import DeclTags.Json.Value
import DeclTags.Proofs.Utf8.Ascii

/-!
# What readers read

A reader either finds a flaw or returns a value and the rest of the text. To
say that it *does* read a value, `Reads` forgets the proof that the rest is
shorter, so that what is read from a text can be put together from what is
read from its parts: there is one lemma for each way to build a reader.

Strings are the first use. A string is written character by character and
read byte by byte, and the two meet in a case distinction on the character
(`escape_cases`): either it stands for itself, and then none of its bytes
means anything inside a string, or it is written as a backslash and an escape
that stands for it. So a string is read as it was written, whatever its
characters are, and whatever stands behind it (`reads_string_quoted`).
-/

namespace DeclTags

open Utf8

namespace Json

variable {α β : Type}

/-- **A reader reads a value** from the head of a text, and leaves the rest. -/
def Reads (r : Reader α) (text : Bytes) (value : α) (rest : Bytes) : Prop :=
  ∃ h, r text = .ok ⟨value, rest, h⟩

theorem skipSpace_cons {b : UInt8} (h : isSpace b = false) (rest : Bytes) :
    skipSpace (b :: rest) = b :: rest := by
  rw [skipSpace, List.dropWhile_cons_of_neg (by rw [h]; exact Bool.false_ne_true)]

theorem skipSpace_cons_ne_nil {b : UInt8} (h : isSpace b = false) (rest : Bytes) :
    skipSpace (b :: rest) ≠ [] := by
  rw [skipSpace_cons h]
  exact List.cons_ne_nil _ _

/-- What a reader finds behind the blanks, if there are none. -/
theorem eq_of_skipSpace_cons {b c : UInt8} {rest more : Bytes} (h : isSpace b = false)
    (hskip : skipSpace (b :: rest) = c :: more) : b = c ∧ rest = more :=
  List.cons.inj ((skipSpace_cons h rest).symm.trans hskip)

namespace Reads

variable {r : Reader α} {text mid rest : Bytes} {a : α} {b : β}

theorem map (f : α → β) (h : Reads r text a rest) : Reads (r.map f) text (f a) rest := by
  obtain ⟨hlt, hr⟩ := h
  exact ⟨hlt, by rw [Reader.map, hr]; rfl⟩

theorem check {f : α → Except Flaw β} (h : Reads r text a rest) (hf : f a = .ok b) :
    Reads (r.check f) text b rest := by
  obtain ⟨hlt, hr⟩ := h
  refine ⟨hlt, ?_⟩
  rw [Reader.check, hr]
  show (f a >>= _) = _
  rw [hf]
  rfl

theorem andThen {f : α → Reader β} (h : Reads r text a mid) (hf : Reads (f a) mid b rest) :
    Reads (r.andThen f) text b rest := by
  obtain ⟨hlt, hr⟩ := h
  obtain ⟨hlt', hr'⟩ := hf
  refine ⟨Nat.lt_trans hlt' hlt, ?_⟩
  rw [Reader.andThen, hr]
  show (f a mid >>= _) = _
  rw [hr']
  rfl

/-- Behind a given byte, which stands behind no blanks. -/
theorem behind {c : UInt8} (hc : isSpace c = false) (h : Reads r text a rest) :
    Reads (Json.behind c r) (c :: text) a rest := by
  obtain ⟨hlt, hr⟩ := h
  refine ⟨Nat.lt_succ_of_lt hlt, ?_⟩
  unfold Json.behind
  split
  · rename_i hnil
    exact absurd hnil (skipSpace_cons_ne_nil hc text)
  · rename_i hcons
    obtain ⟨rfl, rfl⟩ := eq_of_skipSpace_cons hc hcons
    rw [if_pos rfl, hr]
    rfl

/-- A value that is all of a text. -/
theorem readAll (h : Reads r text a []) : Json.readAll r text = .ok a := by
  obtain ⟨hlt, hr⟩ := h
  rw [Json.readAll, hr]
  rfl

end Reads

/-! ## Escapes -/

variable {text mid rest : Bytes} {skipped : Bool}

theorem reads_hexFour {a b c d : UInt8} {i j k l : Nat} (ha : hexValue? a = some i)
    (hb : hexValue? b = some j) (hc : hexValue? c = some k) (hd : hexValue? d = some l) :
    Reads hexFour (a :: b :: c :: d :: rest) (((i * 16 + j) * 16 + k) * 16 + l) rest :=
  ⟨by simp only [List.length_cons]; omega, by simp only [hexFour, ha, hb, hc, hd]⟩

/-- A code point before the surrogates stands alone. -/
theorem reads_codePoint {n : Nat} (h : Reads hexFour text n rest) (hn : n < 0xD800) :
    Reads codePoint text n rest := by
  obtain ⟨hlt, hr⟩ := h
  refine ⟨hlt, ?_⟩
  rw [codePoint, hr]
  show (if 0xDC00 ≤ n ∧ n ≤ 0xDFFF then _ else if 0xD800 ≤ n ∧ n ≤ 0xDBFF then _ else _) = _
  rw [if_neg (by omega), if_neg (by omega)]
  rfl

/-- An escape with digits. -/
theorem reads_unescape_digits {n : Nat} (h : Reads codePoint text n rest) :
    Reads (unescape false) (0x75 :: text) (String.utf8EncodeChar (Char.ofNat n)) rest := by
  obtain ⟨hlt, hr⟩ := h
  refine ⟨Nat.lt_succ_of_lt hlt, ?_⟩
  rw [unescape, if_pos rfl, if_neg Bool.false_ne_true, hr]
  rfl

/-- An escape of one letter. -/
theorem reads_unescape_letter {x c : Char} (hx : x.toNat < 0x80) (hu : UInt8.ofNat x.toNat ≠ 0x75)
    (h : shortEscape? (UInt8.ofNat x.toNat) = some c) (rest : Bytes) :
    Reads (unescape skipped) (encode [x] ++ rest) (String.utf8EncodeChar c) rest := by
  have hbytes : encode [x] ++ rest = UInt8.ofNat x.toNat :: rest := by
    rw [encode, List.flatMap_singleton, encodeChar_of_lt hx]
    rfl
  rw [hbytes]
  refine ⟨Nat.lt_succ_self _, ?_⟩
  rw [unescape, if_neg hu, h]

/-- The value of the digit that is written for a number. -/
theorem hexValue?_hexDigit : ∀ n < 16,
    (hexDigit n).toNat < 0x80 ∧ hexValue? (UInt8.ofNat (hexDigit n).toNat) = some n := by
  decide

theorem printed_hexDigit : ∀ n < 16, Printed [hexDigit n] := by
  decide

/-- The digits that are written for a control character. -/
theorem reads_unescape_control {c : Char} (hc : c.toNat < 0x20) (rest : Bytes) :
    Reads (unescape false)
      (encode ['u', '0', '0', hexDigit (c.toNat / 16), hexDigit (c.toNat % 16)] ++ rest)
      (String.utf8EncodeChar c) rest := by
  obtain ⟨hhigh, hvhigh⟩ := hexValue?_hexDigit (c.toNat / 16) (by omega)
  obtain ⟨hlow, hvlow⟩ := hexValue?_hexDigit (c.toNat % 16) (by omega)
  have hbytes : encode ['u', '0', '0', hexDigit (c.toNat / 16), hexDigit (c.toNat % 16)] ++ rest
      = 0x75 :: 0x30 :: 0x30 :: UInt8.ofNat (hexDigit (c.toNat / 16)).toNat ::
        UInt8.ofNat (hexDigit (c.toNat % 16)).toNat :: rest := by
    simp only [encode, List.flatMap_cons, List.flatMap_nil, encodeChar_of_lt hhigh,
      encodeChar_of_lt hlow]
    rfl
  have hvalue : ((0 * 16 + 0) * 16 + c.toNat / 16) * 16 + c.toNat % 16 = c.toNat := by omega
  have hzero : hexValue? 0x30 = some 0 := by decide
  have hfour : Reads hexFour (0x30 :: 0x30 :: _ :: _ :: rest) _ rest :=
    reads_hexFour hzero hzero hvhigh hvlow
  rw [hvalue] at hfour
  have hread := reads_unescape_digits (reads_codePoint hfour (by omega))
  rw [Char.ofNat_toNat] at hread
  rw [hbytes]
  exact hread

/-- **A character stands for itself, or is written as an escape that stands
for it.** -/
theorem escape_cases (c : Char) :
    (escape c = [c] ∧ c ≠ '"' ∧ c ≠ '\\' ∧ 0x20 ≤ c.toNat) ∨
      ∃ letters, escape c = '\\' :: letters ∧ Printed letters ∧ ∀ rest,
        Reads (unescape false) (encode letters ++ rest) (String.utf8EncodeChar c) rest := by
  have letter {x d : Char} (hc : c = d) (h : x.toNat < 0x80 ∧ UInt8.ofNat x.toNat ≠ 0x75 ∧
      shortEscape? (UInt8.ofNat x.toNat) = some d ∧ Printed [x]) :
      ∃ letters, ['\\', x] = '\\' :: letters ∧ Printed letters ∧ ∀ rest,
        Reads (unescape false) (encode letters ++ rest) (String.utf8EncodeChar c) rest := by
    obtain ⟨hx, hu, hshort, hprinted⟩ := h
    rw [hc]
    exact ⟨[x], rfl, hprinted, reads_unescape_letter hx hu hshort⟩
  unfold escape
  split_ifs with hquote hbackslash hb hf hn hr ht hcontrol
  · exact .inr (letter hquote (by decide))
  · exact .inr (letter hbackslash (by decide))
  · exact .inr (letter hb (by decide))
  · exact .inr (letter hf (by decide))
  · exact .inr (letter hn (by decide))
  · exact .inr (letter hr (by decide))
  · exact .inr (letter ht (by decide))
  · refine .inr ⟨_, rfl, ?_, reads_unescape_control hcontrol⟩
    have hdigits : Printed ([hexDigit (c.toNat / 16)] ++ [hexDigit (c.toNat % 16)]) :=
      printed_append.mpr ⟨printed_hexDigit _ (by omega), printed_hexDigit _ (by omega)⟩
    exact printed_append (x := ['u', '0', '0']).mpr ⟨by decide, hdigits⟩
  · exact .inl ⟨rfl, hquote, hbackslash, Nat.not_lt.mp hcontrol⟩

/-! ## Strings -/

theorem reads_stringTail_quote (rest : Bytes) :
    Reads (stringTail skipped) (Ascii.quote :: rest) [] rest := by
  refine ⟨Nat.lt_succ_self _, ?_⟩
  rw [stringTail, if_pos rfl]

theorem reads_stringTail_escape {x y : Bytes} (hx : Reads (unescape skipped) text x mid)
    (hy : Reads (stringTail skipped) mid y rest) :
    Reads (stringTail skipped) (Ascii.backslash :: text) (x ++ y) rest := by
  obtain ⟨hlt, hr⟩ := hx
  obtain ⟨hlt', hr'⟩ := hy
  refine ⟨Nat.lt_succ_of_lt (Nat.lt_trans hlt' hlt), ?_⟩
  rw [stringTail, if_neg (by decide), if_pos rfl, hr]
  dsimp only
  rw [hr']

/-- A byte that stands for itself. -/
theorem reads_stringTail_byte {b : UInt8} {y : Bytes} (hquote : b ≠ Ascii.quote)
    (hbackslash : b ≠ Ascii.backslash) (hspace : 0x20 ≤ b)
    (hy : Reads (stringTail skipped) text y rest) :
    Reads (stringTail skipped) (b :: text) (b :: y) rest := by
  obtain ⟨hlt, hr⟩ := hy
  refine ⟨Nat.lt_succ_of_lt hlt, ?_⟩
  rw [stringTail, if_neg hquote, if_neg hbackslash, if_neg (UInt8.not_lt.mpr hspace), hr]

/-- A character that stands for itself. -/
theorem reads_stringTail_char {c : Char} {y : Bytes} (hquote : c ≠ '"') (hbackslash : c ≠ '\\')
    (hspace : 0x20 ≤ c.toNat) (hy : Reads (stringTail skipped) text y rest) :
    Reads (stringTail skipped) (String.utf8EncodeChar c ++ text)
      (String.utf8EncodeChar c ++ y) rest := by
  have plain : ∀ b ∈ String.utf8EncodeChar c,
      b ≠ Ascii.quote ∧ b ≠ Ascii.backslash ∧ 0x20 ≤ b := by
    intro b hb
    refine ⟨?_, ?_, ?_⟩
    · rintro rfl
      exact hquote ((mem_encodeChar_iff (c := '"') (by decide)).mp hb).symm
    · rintro rfl
      exact hbackslash ((mem_encodeChar_iff (c := '\\') (by decide)).mp hb).symm
    · by_cases hascii : b < 0x80
      · rw [UInt8.le_iff_toNat_le, toNat_eq_of_mem_encodeChar hascii hb]
        exact hspace
      · exact UInt8.le_trans (by decide) (UInt8.not_lt.mp hascii)
  -- the bytes are read one by one, and they need not be a character for that
  generalize String.utf8EncodeChar c = bytes at plain ⊢
  induction bytes with
  | nil => exact hy
  | cons b bytes ih =>
    obtain ⟨⟨h, h', h''⟩, hbytes⟩ := List.forall_mem_cons.mp plain
    exact reads_stringTail_byte h h' h'' (ih hbytes)

/-- **A string is read as it was written**, behind its opening quote. -/
theorem reads_stringTail (text : List Char) (rest : Bytes) :
    Reads (stringTail false) (encode (text.flatMap escape) ++ Ascii.quote :: rest)
      (encode text) rest := by
  induction text with
  | nil => exact reads_stringTail_quote rest
  | cons c text ih =>
    rw [List.flatMap_cons, encode_append, List.append_assoc]
    rcases escape_cases c with ⟨he, hquote, hbackslash, hspace⟩ | ⟨letters, he, -, hread⟩
    · rw [he, encode, List.flatMap_singleton]
      exact reads_stringTail_char hquote hbackslash hspace ih
    · rw [he]
      exact reads_stringTail_escape (hread _) ih

/-- The bytes of a string in JSON. -/
theorem ofString_quoted (text : String) : ofString (quoted text)
    = Ascii.quote :: (encode (text.toList.flatMap escape) ++ [Ascii.quote]) := by
  have htext : '"' :: text.toList.flatMap escape ++ ['"']
      = ['"'] ++ (text.toList.flatMap escape ++ ['"']) := rfl
  rw [ofString, quoted, String.toList_ofList, htext, encode_append, encode_append]
  rfl

/-- **A string is read as it was written**, whatever stands behind it. -/
theorem reads_string_quoted (text : String) (rest : Bytes) :
    Reads string (ofString (quoted text) ++ rest) text rest := by
  have hread := (reads_stringTail text.toList rest).behind (c := Ascii.quote) (by decide)
  have hstring := hread.map lossy
  rw [lossy_encode, String.ofList_toList] at hstring
  rw [ofString_quoted, List.cons_append, List.append_assoc]
  exact hstring

/-- What is written for a character has no control characters. -/
theorem printed_escape (c : Char) : Printed (escape c) := by
  rcases escape_cases c with ⟨he, -, -, hspace⟩ | ⟨letters, he, hletters, -⟩
  · rw [he]
    exact List.forall_mem_singleton.mpr hspace
  · rw [he]
    exact List.forall_mem_cons.mpr ⟨by decide, hletters⟩

/-- **There are no control characters in a string in JSON.** -/
theorem printed_quoted (text : String) : Printed (quoted text).toList := by
  rw [quoted, String.toList_ofList]
  refine printed_append.mpr ⟨List.forall_mem_cons.mpr ⟨by decide, fun d hd => ?_⟩, by decide⟩
  obtain ⟨c, -, hd⟩ := List.mem_flatMap.mp hd
  exact printed_escape c d hd

end Json

end DeclTags
