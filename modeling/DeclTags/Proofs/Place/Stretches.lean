import DeclTags.Proofs.Place.Blanks
import DeclTags.Proofs.Place.WholeWord
import DeclTags.Proofs.Utf8.Ascii
import Mathlib.Order.Bounds.Defs

/-!
# Blanks, words and marks

At every place before the end of a line stands one of three things: blanks,
which are skipped, a word, which is read, or a mark of punctuation, which is a
single byte of ASCII. Each of them has a rule of its own, and the three rules
leave no place out and claim none twice (`Stretch.existsUnique_standsAt_iff`).
The bytes outside ASCII are the delicate ones. Such a byte belongs to a word
unless a whole blank character starts there, so that words also hold the bytes
that belong to no character, or to half of one.

Skipping and reading both go as far as they can. The blanks skipped are those
at the head of what is decoded from the place on, all of them
(`blanksAt_eq`). A word ends at the first offset at which it cannot go on
(`Place.isLeast_offset_skipWord`). So neither can be done twice at a place.

Blanks are characters, and words are read byte by byte. In a text the
difference does not show: a word takes the bytes of a character together or
not at all, and from between two characters both lead to between two
characters (`Place.isBoundary_offset`).
-/

namespace DeclTags

open Utf8

/-! ## Ends of words -/

/-- **A word stops at an offset** if the bytes end there, if a byte stands there
that is none of words, or if a blank character outside ASCII starts there. -/
def StopsWord (bytes : Bytes) (n : Nat) : Prop :=
  bytes.length ≤ n ∨ (∃ b, bytes[n]? = some b ∧ continuesWord b = false) ∨
    ∃ c, isWideBlank c = true ∧ String.utf8EncodeChar c <+: bytes.drop n

theorem isNone_wideBlank?_iff {bytes : Bytes} : (wideBlank? bytes).isNone = true ↔
    ¬ ∃ c, isWideBlank c = true ∧ String.utf8EncodeChar c <+: bytes := by
  rw [Option.isNone_iff_eq_none]
  constructor
  · rintro h ⟨c, hc, more, rfl⟩
    rw [wideBlank?_encodeChar hc] at h
    exact absurd h (Option.some_ne_none _)
  · intro h
    rw [Option.eq_none_iff_forall_ne_some]
    intro n hn
    obtain ⟨c, more, hc, rfl, -⟩ := wideBlank?_eq_some_iff.mp hn
    exact h ⟨c, hc, more, rfl⟩

/-- **A word goes on where it does not stop.** -/
theorem wordGoesOn_drop_iff {bytes : Bytes} {n : Nat} :
    wordGoesOn (bytes.drop n) = true ↔ ¬ StopsWord bytes n := by
  unfold StopsWord
  by_cases hn : bytes.length ≤ n
  · rw [List.drop_of_length_le hn]
    exact ⟨fun h => absurd h Bool.false_ne_true, fun h => absurd (.inl hn) h⟩
  · have hlt : n < bytes.length := Nat.lt_of_not_le hn
    rw [List.drop_eq_getElem_cons hlt, wordGoesOn_cons, Bool.and_eq_true, isNone_wideBlank?_iff,
      List.getElem?_eq_getElem hlt, not_or, not_or]
    simp [hn]

/-! ## Boundaries of a text -/

namespace Utf8

/-- **A boundary of a text**: an offset in its bytes that some of its characters
come before and the others behind. -/
def IsBoundary (text : List Char) (n : Nat) : Prop :=
  ∃ before after, text = before ++ after ∧ n = (encode before).length

theorem isBoundary_add_takeWhile (before after : List Char) (f : Char → Bool) :
    IsBoundary (before ++ after)
      ((encode before).length + (encode (after.takeWhile f)).length) := by
  refine ⟨before ++ after.takeWhile f, after.dropWhile f, ?_, ?_⟩
  · rw [List.append_assoc, List.takeWhile_append_dropWhile]
  · rw [encode_append, List.length_append]

end Utf8

namespace Place

variable {p : Place}

/-! ## Skipping and reading -/

theorem skipBlanks_skipBlanks (p : Place) : p.skipBlanks.skipBlanks = p.skipBlanks :=
  skipBlanks_of_not_blank (blank?_drop_blanksAt p.after)

theorem word_skipWord (p : Place) : p.skipWord.word = [] := by
  rw [skipWord, word_forward (Nat.le_refl _), List.drop_length]

theorem skipWord_skipWord (p : Place) : p.skipWord.skipWord = p.skipWord := by
  rw [skipWord, word_skipWord]
  exact forward_zero _

/-- A word stops where there is no word. -/
theorem stopsWord_iff (p : Place) : StopsWord p.line p.offset ↔ p.word = [] := by
  rw [← not_iff_not, ← wordGoesOn_drop_iff, p.drop_offset, ← wordAt_ne_nil_iff]
  exact Iff.rfl

/-- **A word ends at the first offset at which it stops.** -/
theorem isLeast_offset_skipWord (p : Place) :
    IsLeast {n | p.offset ≤ n ∧ StopsWord p.line n} p.skipWord.offset := by
  constructor
  · have hstops := (stopsWord_iff p.skipWord).mpr p.word_skipWord
    rw [skipWord, line_forward] at hstops
    exact ⟨offset_le_forward _ p, hstops⟩
  · rintro n ⟨hle, hstops⟩
    refine Nat.not_lt.mp fun hlt => ?_
    rw [offset_skipWord] at hlt
    have hinside : n - p.offset < p.word.length := by omega
    have hend : p.word.length ≤ p.after.length := (wordAt_isPrefix p.after).length_le
    -- at an offset inside the word stands the rest of it
    have hoffset : (p.forward (n - p.offset)).offset = n := by
      rw [offset_forward]
      omega
    have hrest := (stopsWord_iff (p.forward (n - p.offset))).mp
      (by rw [line_forward, hoffset]; exact hstops)
    rw [word_forward (Nat.le_of_lt hinside), List.drop_eq_nil_iff] at hrest
    omega

/-- **From a boundary of a text**, skipping and reading lead to a boundary. -/
theorem isBoundary_offset {text : List Char} (hline : p.line = encode text)
    (hp : IsBoundary text p.offset) :
    IsBoundary text p.skipBlanks.offset ∧ IsBoundary text p.skipWord.offset := by
  obtain ⟨before, after, rfl, hoffset⟩ := hp
  have hafter : p.after = encode after := by
    rw [← p.drop_offset, hline, hoffset, encode_append, List.drop_left]
  rw [offset_skipBlanks, offset_skipWord, word, hafter, blanksAt_encode, wordAt_encode, hoffset]
  exact ⟨isBoundary_add_takeWhile before after isBlank,
    isBoundary_add_takeWhile before after charGoesOn⟩

end Place

/-! ## What stands at a place -/

/-- **What stands at a place before the end of a line.** -/
inductive Stretch
  /-- Blanks, at least one. -/
  | blanks
  /-- A word. -/
  | word
  /-- A mark of punctuation. -/
  | mark
deriving DecidableEq

namespace Stretch

variable {p : Place} {bytes : Bytes}

/-- **What it means to stand at a place**: of blanks, that skipping them leads
on; of a word, that the word read is not empty; of a mark, that the byte there
is one of ASCII, but neither a blank nor a byte of words. -/
def StandsAt (p : Place) : Stretch → Prop
  | blanks => p.offset < p.skipBlanks.offset
  | word => p.word ≠ []
  | mark => ∃ b, p.here? = some b ∧ b < 0x80 ∧ isBlankByte b = false ∧ continuesWord b = false

/-- What stands at the head of some bytes, told from the blank or the byte
there. -/
def first? : Bytes → Option Stretch
  | [] => none
  | b :: rest =>
    if (blank? (b :: rest)).isSome then some blanks
    else if continuesWord b then some word
    else some mark

theorem first?_eq_blanks_iff : first? bytes = some blanks ↔ 0 < blanksAt bytes := by
  cases bytes with
  | nil =>
    rw [blanksAt]
    exact ⟨fun h => absurd h.symm (Option.some_ne_none _), fun h => absurd h (Nat.lt_irrefl 0)⟩
  | cons b rest =>
    rw [first?]
    cases hblank : blank? (b :: rest) with
    | none =>
      rw [blanksAt_of_not_blank hblank]
      cases continuesWord b <;> simp
    | some n =>
      rw [blanksAt_of_blank? hblank]
      simp [Nat.add_pos_left (blank?_pos hblank)]

theorem first?_eq_word_iff : first? bytes = some word ↔ wordGoesOn bytes = true := by
  cases bytes with
  | nil => simp [first?, wordGoesOn]
  | cons b rest =>
    rw [first?]
    cases hblank : blank? (b :: rest) with
    | none =>
      rw [wordGoesOn_cons, (blank?_cons_eq_none_iff.mp hblank).2]
      cases continuesWord b <;> simp
    | some n =>
      have hgo : ¬ wordGoesOn (b :: rest) = true := fun h => by
        rw [blank?_of_goesOn h] at hblank
        exact Option.some_ne_none n hblank.symm
      simp [hgo]

theorem first?_eq_mark_iff : first? bytes = some mark ↔ ∃ b, bytes.head? = some b ∧
    b < 0x80 ∧ isBlankByte b = false ∧ continuesWord b = false := by
  cases bytes with
  | nil => simp [first?]
  | cons b rest =>
    rw [first?]
    constructor
    · intro h
      cases hblank : blank? (b :: rest) with
      | none =>
        cases hb : continuesWord b with
        | false =>
          exact ⟨b, rfl, lt_of_not_continuesWord hb, (blank?_cons_eq_none_iff.mp hblank).1, hb⟩
        | true => simp [hblank, hb] at h
      | some n => simp [hblank] at h
    · rintro ⟨_, ⟨⟩, -, hblank, hb⟩
      simp [blank?_of_mark hblank hb, hb]

theorem standsAt_iff {s : Stretch} : s.StandsAt p ↔ first? p.after = some s := by
  cases s with
  | blanks =>
    show p.offset < p.skipBlanks.offset ↔ _
    rw [first?_eq_blanks_iff, Place.offset_skipBlanks, Nat.lt_add_right_iff_pos]
  | word => exact wordAt_ne_nil_iff.trans first?_eq_word_iff.symm
  | mark => exact first?_eq_mark_iff.symm

theorem exists_first?_iff : (∃ s, first? bytes = some s) ↔ bytes ≠ [] := by
  cases bytes with
  | nil => simp [first?]
  | cons b rest =>
    rw [first?]
    split
    · simp
    · split <;> simp

/-- **Exactly one of the three stands at every place** before the end. -/
theorem existsUnique_standsAt_iff :
    (∃! s : Stretch, s.StandsAt p) ↔ p.offset < p.line.length := by
  rw [← Place.after_ne_nil_iff, ← exists_first?_iff]
  simp only [standsAt_iff]
  constructor
  · exact ExistsUnique.exists
  · rintro ⟨s, hs⟩
    exact ⟨s, hs, fun t ht => Option.some.inj (ht.symm.trans hs)⟩

end Stretch

/-- **Blanks, words and marks divide every line.** Before the end of the line
one of them stands at every place, and only one. Behind blanks that have been
skipped there are no blanks, and behind a word that has been read no word goes
on. The blanks skipped are all blank characters at the head of what is decoded
from the place on, and a word ends at the first offset at which it stops. And
in a text both lead from between two characters to between two characters. -/
theorem stretches_divide_line (p : Place) :
    ((∃! s : Stretch, s.StandsAt p) ↔ p.offset < p.line.length) ∧
    p.skipBlanks.skipBlanks = p.skipBlanks ∧
    p.skipWord.skipWord = p.skipWord ∧
    p.skipBlanks.offset = p.offset + ((blankRun p.after).flatMap Segment.bytes).length ∧
    IsLeast {n | p.offset ≤ n ∧ StopsWord p.line n} p.skipWord.offset ∧
    ∀ text : List Char, p.line = encode text → IsBoundary text p.offset →
      IsBoundary text p.skipBlanks.offset ∧ IsBoundary text p.skipWord.offset := by
  refine ⟨Stretch.existsUnique_standsAt_iff, p.skipBlanks_skipBlanks, p.skipWord_skipWord, ?_,
    p.isLeast_offset_skipWord, fun text hline hp => Place.isBoundary_offset hline hp⟩
  rw [Place.offset_skipBlanks, blanksAt_eq]

/-- A no-break space and a space, then a name, then a comma, in a line that a
NUL byte ends. -/
theorem stretches_divide_line_no_break_space :
    let p := (Place.start (ofString "x\u00A0 имя,\u0000y")).forward 1
    let text := "x\u00A0 имя,".toList
    p.line = encode text ∧ IsBoundary text p.offset ∧ (∃! s : Stretch, s.StandsAt p) ∧
      p.skipBlanks.offset = 4 ∧ IsBoundary text 4 ∧
      p.skipBlanks.skipWord.offset = 10 ∧ IsBoundary text 10 := by
  intro p text
  have hline : p.line = encode text := by decide +kernel
  have hstart : IsBoundary text p.offset :=
    ⟨['x'], "\u00A0 имя,".toList, by decide +kernel, by decide +kernel⟩
  obtain ⟨hone, -, -, hblanks, -, htext⟩ := stretches_divide_line p
  have hname : p.skipBlanks.offset = 4 := by
    rw [hblanks]
    decide +kernel
  have hcomma : p.skipBlanks.skipWord.offset = 10 := by decide +kernel
  obtain ⟨hbehind, -⟩ := htext text hline hstart
  obtain ⟨-, -, -, -, -, htext⟩ := stretches_divide_line p.skipBlanks
  obtain ⟨-, hend⟩ := htext text (by rw [Place.skipBlanks, Place.line_forward, hline]) hbehind
  refine ⟨hline, hstart, hone.mpr (by decide +kernel), hname, hname ▸ hbehind, hcomma,
    hcomma ▸ hend⟩

end DeclTags
