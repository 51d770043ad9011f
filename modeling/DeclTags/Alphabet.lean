import DeclTags.Utf8

/-!
# The alphabet of source lines

Which bytes make up words, which characters separate them, and how letter
case is ignored. The language writes its keywords in two alphabets, so the
rules know ASCII and Cyrillic and nothing else.

All punctuation of the language is ASCII. Hence every byte from `80` on
counts as part of a word, whether or not it belongs to a well-formed
character, with one exception: a blank character outside ASCII, such as a
no-break space, ends a word like an ASCII one. That exception cannot be told
from one byte, so it is stated on the bytes from a position on
(`wideBlank?`), and `wordGoesOn` puts the two rules together.
-/

namespace DeclTags

/-! ## Bytes of words -/

/-- May a word start with this byte? Letters of ASCII and the underscore. -/
def startsWord (b : UInt8) : Bool :=
  (0x41 ≤ b && b ≤ 0x5A) || (0x61 ≤ b && b ≤ 0x7A) || b == 0x5F

/-- Is the byte a decimal digit? -/
def isDigit (b : UInt8) : Bool := 0x30 ≤ b && b ≤ 0x39

/-- May a word go on with this byte? What may start it, digits, dots, and
every byte outside ASCII. -/
def continuesWord (b : UInt8) : Bool :=
  startsWord b || isDigit b || b == 0x2E || 0x80 ≤ b

/-- Does this byte end a word in progress? -/
def endsWord (b : UInt8) : Bool := !continuesWord b

/-! ## Blanks -/

/-- The blank bytes of ASCII: space, tab, line feed, form feed and carriage
return. The vertical tab is not one of them. -/
def isBlankByte (b : UInt8) : Bool :=
  b == 0x20 || b == 0x09 || b == 0x0A || b == 0x0C || b == 0x0D

/-- **The blank characters outside ASCII**: those with the Unicode property
`White_Space`. -/
def isWideBlank (c : Char) : Bool :=
  c == '\u0085' || c == '\u00A0' || c == '\u1680' ||
    ('\u2000' ≤ c && c ≤ '\u200A') ||
    c == '\u2028' || c == '\u2029' || c == '\u202F' || c == '\u205F' || c == '\u3000'

/-- The blank character outside ASCII that some bytes start with, as the
number of its bytes. -/
def wideBlank? : Bytes → Option Nat
  | [] => none
  | b :: rest =>
    if b < 0x80 then none
    else
      let s := Utf8.first b rest
      if s.char?.any isWideBlank then some s.bytes.length else none

/-- Do these bytes carry on a word that ends right before them? Their first
byte has to be a byte of words that does not start a blank. -/
def wordGoesOn : Bytes → Bool
  | [] => false
  | b :: rest => continuesWord b && (wideBlank? (b :: rest)).isNone

/-- **The word at the head of some bytes**: everything up to the first byte
that does not carry it on. Empty when no byte does. -/
def wordAt : Bytes → Bytes
  | [] => []
  | b :: rest => if wordGoesOn (b :: rest) then b :: wordAt rest else []

/-- **The blanks at the head of some bytes**, as a number of bytes. -/
def blanksAt : Bytes → Nat
  | [] => 0
  | b :: rest =>
    if isBlankByte b then blanksAt rest + 1
    else
      match wideBlank? (b :: rest) with
      | some n => n + blanksAt (rest.drop (n - 1))
      | none => 0
termination_by bytes => bytes.length
decreasing_by
  · rw [List.length_cons]
    omega
  · rw [List.length_drop, List.length_cons]
    omega

/-! ## Letters -/

/-- **The letters of the Cyrillic block**, `U+0400` to `U+04FF`: everything
there but the thousands sign and the combining marks after it. -/
def isCyrillicLetter (c : Char) : Bool :=
  '\u0400' ≤ c && c ≤ '\u04FF' && !('\u0482' ≤ c && c ≤ '\u0489')

/-- Do these bytes start with a Cyrillic letter? -/
def startsCyrillic : Bytes → Bool
  | [] => false
  | b :: rest => 0x80 ≤ b && (Utf8.first b rest).char?.any isCyrillicLetter

/-- May a declared name start here? Letters of ASCII and the underscore
always may, Cyrillic letters if the reader says so. -/
def startsName (cyrillic : Bool) : Bytes → Bool
  | [] => false
  | b :: rest => startsWord b || (cyrillic && startsCyrillic (b :: rest))

/-! ## Letter case -/

/-- **The small form of a letter** of ASCII or of the basic Russian
alphabet. Every other character is its own small form, Ё included: its small
form lies outside the row of the alphabet. -/
def smallForm (c : Char) : Char :=
  if 'A' ≤ c ∧ c ≤ 'Z' ∨ 'А' ≤ c ∧ c ≤ 'Я' then Char.ofNat (c.toNat + 0x20) else c

/-- A segment with its letter made small. An ill-formed part stays as it is. -/
def foldSegment (s : Utf8.Segment) : Bytes :=
  match s.char? with
  | some c => String.utf8EncodeChar (smallForm c)
  | none => s.bytes

/-- **A byte string with its letters made small**, segment by segment. -/
def foldCase (bytes : Bytes) : Bytes := (Utf8.segments bytes).flatMap foldSegment

/-! ## Small lemmas -/

theorem wordAt_isPrefix (bytes : Bytes) : wordAt bytes <+: bytes := by
  induction bytes with
  | nil => exact List.nil_prefix
  | cons b rest ih =>
    rw [wordAt]
    split
    · exact (List.prefix_cons_inj b).mpr ih
    · exact List.nil_prefix

/-- The bytes that a blank covers are bytes of the input. -/
theorem wideBlank?_le {bytes : Bytes} {n : Nat} (h : wideBlank? bytes = some n) :
    0 < n ∧ n ≤ bytes.length := by
  match bytes with
  | [] => simp [wideBlank?] at h
  | b :: rest =>
    obtain ⟨tail, hs, more, rfl⟩ := Utf8.first_bytes b rest
    simp only [wideBlank?, hs] at h
    split at h
    · simp at h
    · split at h
      · simp at h
        subst h
        simp
      · simp at h

theorem blanksAt_le (bytes : Bytes) : blanksAt bytes ≤ bytes.length := by
  fun_induction blanksAt bytes with
  | case1 => exact Nat.le_refl _
  | case2 b rest _ ih => simpa using ih
  | case3 b rest _ n h ih =>
    have hn := wideBlank?_le h
    rw [List.length_drop] at ih
    rw [List.length_cons] at hn ⊢
    omega
  | case4 => exact Nat.zero_le _

/-- No Cyrillic letter is a blank. -/
theorem isWideBlank_of_isCyrillicLetter {c : Char} (h : isCyrillicLetter c = true) :
    isWideBlank c = false := by
  simp only [isCyrillicLetter, isWideBlank, Bool.and_eq_true, Bool.or_eq_false_iff,
    Bool.and_eq_false_iff, decide_eq_true_eq, decide_eq_false_iff_not, beq_eq_false_iff_ne,
    ne_eq, Char.le_def, Char.ext_iff, UInt32.le_iff_toNat_le, ← UInt32.toNat_inj] at h ⊢
  obtain ⟨⟨h₁, h₂⟩, -⟩ := h
  simp only [Char.reduceVal, UInt32.reduceToNat] at h₁ h₂ ⊢
  omega

/-- **Where a name may start, a word carries on.** -/
theorem wordGoesOn_of_startsName {cyrillic : Bool} {bytes : Bytes}
    (h : startsName cyrillic bytes = true) : wordGoesOn bytes = true := by
  match bytes with
  | [] => simp [startsName] at h
  | b :: rest =>
    simp only [startsName, Bool.or_eq_true, Bool.and_eq_true] at h
    rcases h with h | ⟨-, h⟩
    · have hb : b < 0x80 := by
        simp only [startsWord, Bool.or_eq_true, Bool.and_eq_true, decide_eq_true_eq,
          beq_iff_eq, UInt8.le_iff_toNat_le, ← UInt8.toNat_inj] at h
        rw [UInt8.lt_iff_toNat_lt]
        simp only [UInt8.reduceToNat] at h ⊢
        omega
      simp [wordGoesOn, continuesWord, wideBlank?, h, hb]
    · simp only [startsCyrillic, Bool.and_eq_true, decide_eq_true_eq] at h
      have hn : ¬ b < 0x80 := UInt8.not_lt.mpr h.1
      have hc : (Utf8.first b rest).char?.any isWideBlank = false := by
        cases hs : (Utf8.first b rest).char? with
        | none => rfl
        | some c => exact isWideBlank_of_isCyrillicLetter (by simpa [hs] using h.2)
      simp [wordGoesOn, continuesWord, wideBlank?, h.1, hn, hc]

end DeclTags
