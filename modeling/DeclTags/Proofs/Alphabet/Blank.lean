import DeclTags.Proofs.Lexeme

/-!
# Blanks of a line

Blanks are skipped one at a time: the blanks at the head of some bytes are the
first of them and the blanks behind that one (`blanksAt_of_blank?`), until no
blank is left (`blank?_drop_blanksAt`). The first is told from its first byte,
or by decoding the bytes there.

The second reading needs no bytes. Decoded from their start, the bytes begin
with a run of blank characters, those of ASCII among them, and that run is
what is skipped (`blanksAt_eq`). For a blank is a whole character, so what is
decoded behind it is what was decoded there before, and a blank byte is a
character by itself.
-/

namespace DeclTags

open Utf8

/-! ## One blank after another -/

theorem blank?_cons_eq_none_iff {b : UInt8} {rest : Bytes} : blank? (b :: rest) = none ↔
    isBlankByte b = false ∧ wideBlank? (b :: rest) = none := by
  rw [blank?]
  cases isBlankByte b <;> simp

/-- A blank has bytes. -/
theorem blank?_pos {bytes : Bytes} {n : Nat} (h : blank? bytes = some n) : 0 < n := by
  match bytes with
  | [] => exact absurd h.symm (Option.some_ne_none n)
  | b :: rest =>
    rw [blank?] at h
    split at h
    · rw [← Option.some.inj h]
      exact Nat.one_pos
    · exact (wideBlank?_le h).1

theorem blanksAt_of_blank? {bytes : Bytes} {n : Nat} (h : blank? bytes = some n) :
    blanksAt bytes = n + blanksAt (bytes.drop n) := by
  match bytes with
  | [] => exact absurd h (by simp [blank?])
  | b :: rest =>
    rw [blank?] at h
    rw [blanksAt]
    split
    · rename_i hb
      rw [if_pos hb] at h
      rw [← Option.some.inj h, Nat.add_comm]
      rfl
    · rename_i hb
      rw [if_neg hb] at h
      obtain ⟨hpos, -⟩ := wideBlank?_le h
      rw [h]
      dsimp only
      rw [List.drop_cons hpos]

theorem blanksAt_of_not_blank {bytes : Bytes} (h : blank? bytes = none) : blanksAt bytes = 0 := by
  match bytes with
  | [] => rw [blanksAt]
  | b :: rest =>
    rw [blank?] at h
    split at h
    · exact absurd h (by simp)
    · rename_i hb
      rw [blanksAt, if_neg hb, h]

/-- Behind the blanks stands no blank. -/
theorem blank?_drop_blanksAt (bytes : Bytes) : blank? (bytes.drop (blanksAt bytes)) = none := by
  fun_induction blanksAt bytes with
  | case1 => rfl
  | case2 b rest _ ih => exact ih
  | case3 b rest _ n h ih =>
    rw [← List.drop_drop, List.drop_cons (wideBlank?_le h).1]
    exact ih
  | case4 b rest hb h => rw [List.drop_zero, blank?, if_neg hb, h]

/-! ## Blank characters -/

/-- **The blank characters**: the space, the control characters from the tab
to the carriage return without the vertical tab, and those outside ASCII. -/
def isBlank (c : Char) : Bool :=
  c == ' ' || ('\t' ≤ c && c ≤ '\r' && c != '\x0B') || isWideBlank c

theorem isBlank_iff {c : Char} : isBlank c = true ↔
    (c.toNat = 0x20 ∨ 0x09 ≤ c.toNat ∧ c.toNat ≤ 0x0D ∧ c.toNat ≠ 0x0B) ∨
      isWideBlank c = true := by
  have hc : c.val.toNat = c.toNat := rfl
  simp only [isBlank, Bool.or_eq_true, Bool.and_eq_true, decide_eq_true_eq, beq_iff_eq,
    bne_iff_ne, ne_eq, Char.le_def, Char.ext_iff, UInt32.le_iff_toNat_le, ← UInt32.toNat_inj,
    Char.reduceVal, UInt32.reduceToNat, hc, and_assoc]

theorem isBlankByte_iff {b : UInt8} : isBlankByte b = true ↔
    b.toNat = 0x20 ∨ 0x09 ≤ b.toNat ∧ b.toNat ≤ 0x0D ∧ b.toNat ≠ 0x0B := by
  simp only [isBlankByte, Bool.or_eq_true, beq_iff_eq, ← UInt8.toNat_inj, UInt8.reduceToNat]
  omega

/-- **A blank is found where a blank character stands**, with its bytes. -/
theorem blank?_encodeChar_append (c : Char) (more : Bytes) :
    blank? (String.utf8EncodeChar c ++ more)
      = if isBlank c then some (String.utf8EncodeChar c).length else none := by
  by_cases hascii : c.toNat < 0x80
  · have hwide : isWideBlank c = false := by
      rw [Bool.eq_false_iff, Ne, isWideBlank_iff]
      omega
    have hbyte : isBlankByte (UInt8.ofNat c.toNat) = isBlank c := by
      rw [Bool.eq_iff_iff, isBlankByte_iff, isBlank_iff, hwide, toNat_ofNat_of_lt (by omega)]
      simp
    have hlt : UInt8.ofNat c.toNat < 0x80 := by
      rw [UInt8.lt_iff_toNat_lt, toNat_ofNat_of_lt (by omega)]
      exact hascii
    rw [encodeChar_of_lt hascii, List.singleton_append, blank?, hbyte, wideBlank?, if_pos hlt]
    rfl
  · have hblank : isBlank c = isWideBlank c := by
      rw [Bool.eq_iff_iff, isBlank_iff]
      exact or_iff_right (by omega)
    rw [hblank]
    split
    · rename_i hwide
      exact blank?_of_isWideBlank hwide more
    · rename_i hwide
      -- what is no blank outside ASCII belongs to a word
      refine blank?_of_goesOn ?_
      rw [wordGoesOn_encodeChar, charGoesOn, if_neg hascii, Bool.eq_false_iff.mpr hwide]
      rfl

/-! ## Runs of blanks -/

/-- **The run of blanks at the head of some bytes**: their segments up to the
first that is no blank character. -/
def blankRun (bytes : Bytes) : List Segment :=
  (segments bytes).takeWhile fun s => s.char?.any isBlank

theorem blankRun_encodeChar_append (c : Char) (more : Bytes) :
    blankRun (String.utf8EncodeChar c ++ more)
      = if isBlank c then ⟨String.utf8EncodeChar c, some c⟩ :: blankRun more else [] := by
  rw [blankRun, segments_encodeChar_append, List.takeWhile_cons]
  rfl

theorem blankRun_of_illFormed {b : UInt8} {tail more : Bytes}
    (h : first b (tail ++ more) = ⟨b :: tail, none⟩) : blankRun (b :: (tail ++ more)) = [] := by
  rw [blankRun, segments_cons_of_first (by rw [h]), h]
  rfl

/-- **All blanks at the head of some bytes are found**, and no more. -/
theorem blanksAt_eq (bytes : Bytes) :
    blanksAt bytes = ((blankRun bytes).flatMap Segment.bytes).length := by
  induction bytes using char_induction with
  | nil =>
    rw [blanksAt, blankRun, segments_nil]
    rfl
  | char c more ih =>
    have hblank := blank?_encodeChar_append c more
    rw [blankRun_encodeChar_append]
    split
    · rename_i hc
      rw [if_pos hc] at hblank
      rw [blanksAt_of_blank? hblank, List.drop_left, ih, List.flatMap_cons,
        List.length_append]
    · rename_i hc
      rw [if_neg hc] at hblank
      exact blanksAt_of_not_blank hblank
  | illFormed b tail more h ih =>
    rw [blankRun_of_illFormed h]
    exact blanksAt_of_not_blank (blank?_of_goesOn (wordGoesOn_of_illFormed h))

/-- The blanks at the head of a text are its first blank characters. -/
theorem blanksAt_encode (text : List Char) :
    blanksAt (encode text) = (encode (text.takeWhile isBlank)).length := by
  rw [blanksAt_eq, blankRun, segments_encode, List.takeWhile_map, List.flatMap_map]
  rfl

end DeclTags
