import DeclTags.Proofs.Utf8.WellFormed

/-!
# Characters of ASCII in a text

Formats for machines put characters of ASCII between the texts that they
carry, and can be read back only if no such character is in the texts. Here
that question is moved from characters to bytes. A character of ASCII is in a
text exactly if its byte is in the encoding of the text
(`mem_encode_iff`), because all bytes of other characters lie outside ASCII.
And decoding with substitution makes up no character of ASCII: what is in the
reading of a byte string has its byte there (`mem_of_mem_lossy`), whatever
else the bytes are.

What a format writes of its own accord it can be held to directly: it has no
control characters (`Printed`), and the ends of lines and the tabs between
fields are control characters.
-/

namespace DeclTags

/-- What is in some texts with a separator between them is in the separator
or in one of the texts. -/
theorem mem_of_mem_intercalate {α : Type} {x : α} {separator : List α} {texts : List (List α)}
    (h : x ∈ separator.intercalate texts) : x ∈ separator ∨ ∃ text ∈ texts, x ∈ text := by
  induction texts with
  | nil => exact absurd h List.not_mem_nil
  | cons text texts ih =>
    cases texts with
    | nil =>
      rw [List.intercalate_singleton] at h
      exact .inr ⟨text, List.mem_cons_self, h⟩
    | cons text' texts =>
      rw [List.intercalate_cons_cons, List.mem_append, List.mem_append] at h
      rcases h with (h | h) | h
      · exact .inr ⟨text, List.mem_cons_self, h⟩
      · exact .inl h
      · exact (ih h).imp_right (fun ⟨l, hl, hx⟩ => ⟨l, List.mem_cons_of_mem _ hl, hx⟩)

/-! ## Control characters -/

/-- **A text without control characters**, which are those below the space. -/
def Printed (text : List Char) : Prop := ∀ c ∈ text, 0x20 ≤ c.toNat

instance (text : List Char) : Decidable (Printed text) :=
  decidable_of_iff (text.all (fun c => 0x20 ≤ c.toNat) = true) (by simp [Printed])

theorem Printed.not_mem {text : List Char} (h : Printed text) {c : Char} (hc : c.toNat < 0x20) :
    c ∉ text :=
  fun hmem => absurd hc (Nat.not_lt.mpr (h c hmem))

theorem printed_append {x y : List Char} : Printed (x ++ y) ↔ Printed x ∧ Printed y :=
  List.forall_mem_append

theorem printed_intercalate {separator : List Char} {texts : List (List Char)}
    (hseparator : Printed separator) (htexts : ∀ text ∈ texts, Printed text) :
    Printed (separator.intercalate texts) := by
  intro c hc
  rcases mem_of_mem_intercalate hc with hc | ⟨text, htext, hc⟩
  · exact hseparator c hc
  · exact htexts text htext c hc

/-- A number is written in decimal. -/
theorem toList_toString (n : Nat) : (toString n).toList = Nat.toDigits 10 n := by
  rw [Nat.toString_eq_ofList_toDigits, String.toList_ofList]

theorem isDigit_of_mem_toString {n : Nat} : ∀ c ∈ (toString n).toList, c.isDigit = true := by
  intro c hc
  rw [toList_toString] at hc
  exact Nat.isDigit_of_mem_toDigits (by decide) (by decide) hc

theorem printed_toString (n : Nat) : Printed (toString n).toList :=
  fun c hc => Nat.le_trans (by decide) (Char.isDigit_iff_toNat.mp (isDigit_of_mem_toString c hc)).1

/-! ## Bytes of ASCII -/

namespace Utf8

/-- A byte of ASCII is a character by itself. -/
theorem toNat_eq_of_mem_encodeChar {b : UInt8} {c : Char} (hb : b < 0x80)
    (h : b ∈ String.utf8EncodeChar c) : b.toNat = c.toNat := by
  by_cases hc : c.toNat < 0x80
  · rw [encodeChar_of_lt hc, List.mem_singleton] at h
    rw [h, toNat_ofNat_of_lt (by omega)]
  · -- all bytes of `c` lie outside ASCII
    obtain ⟨b', tail, he, -, htail, hlt⟩ := encodeChar_cons c
    rw [he] at h
    rcases List.mem_cons.mp h with rfl | h
    · exact absurd (hlt.mpr hb) hc
    · exact absurd hb (UInt8.not_lt.mpr (le_of_isContinuation (htail b h)))

/-- The byte of a character of ASCII is in no other character. -/
theorem mem_encodeChar_iff {c d : Char} (h : c.toNat < 0x80) :
    UInt8.ofNat c.toNat ∈ String.utf8EncodeChar d ↔ c = d := by
  have hc : (UInt8.ofNat c.toNat).toNat = c.toNat := toNat_ofNat_of_lt (by omega)
  constructor
  · intro hmem
    have hb : UInt8.ofNat c.toNat < 0x80 := by
      rw [UInt8.lt_iff_toNat_lt, hc]
      exact h
    rw [← Char.toNat_inj, ← hc]
    exact toNat_eq_of_mem_encodeChar hb hmem
  · rintro rfl
    rw [encodeChar_of_lt h]
    exact List.mem_singleton_self _

/-- **A character of ASCII is in a text if its byte is in the encoding.** -/
theorem mem_encode_iff {c : Char} (h : c.toNat < 0x80) {text : List Char} :
    UInt8.ofNat c.toNat ∈ encode text ↔ c ∈ text := by
  rw [encode, List.mem_flatMap]
  constructor
  · rintro ⟨d, hd, hmem⟩
    rw [(mem_encodeChar_iff h).mp hmem]
    exact hd
  · exact fun hc => ⟨c, hc, (mem_encodeChar_iff h).mpr rfl⟩

/-- **Substitution makes up no character of ASCII**: one that is in the
reading of some bytes has its byte there. -/
theorem mem_of_mem_lossy {bytes : Bytes} {c : Char} (hc : c ∈ (lossy bytes).toList)
    (h : c.toNat < 0x80) : UInt8.ofNat c.toNat ∈ bytes := by
  rw [lossy, String.toList_ofList] at hc
  obtain ⟨s, hs, hreading⟩ := List.mem_map.mp hc
  rw [Segment.reading] at hreading
  cases hchar : s.char? with
  | none =>
    rw [hchar] at hreading
    have hsubstitute : c = '\uFFFD' := hreading.symm
    rw [hsubstitute] at h
    exact absurd h (by decide)
  | some d =>
    rw [hchar] at hreading
    obtain rfl : d = c := hreading
    rw [← flatMap_segments bytes, List.mem_flatMap]
    refine ⟨s, hs, ?_⟩
    rw [bytes_of_mem_segments hs hchar]
    exact (mem_encodeChar_iff h).mpr rfl

theorem encode_append (x y : List Char) : encode (x ++ y) = encode x ++ encode y :=
  List.flatMap_append

theorem ofString_append (x y : String) : ofString (x ++ y) = ofString x ++ ofString y := by
  rw [ofString, String.toList_append, encode_append]
  rfl

theorem lossy_ofString (text : String) : lossy (ofString text) = text := by
  rw [ofString, lossy_encode, String.ofList_toList]

/-- A text can be decoded from its bytes. -/
theorem decode?_encode (text : List Char) : decode? (encode text) = some (String.ofList text) := by
  have hchars : (text.map fun c => (⟨String.utf8EncodeChar c, some c⟩ : Segment)).mapM
      Segment.char? = some text := by
    induction text with
    | nil => rfl
    | cons c text ih =>
      rw [List.map_cons, List.mapM_cons, ih]
      rfl
  rw [decode?, segments_encode, hchars]
  rfl

end Utf8

end DeclTags
