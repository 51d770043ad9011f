import DeclTags.Proofs.Place.Blanks
import DeclTags.Proofs.Place.Boundary
import DeclTags.Proofs.Utf8.Chunks

/-!
# Looking back agrees with looking forward

A scan goes through a line from left to right and skips the blanks it meets.
At a place further on it looks back, through a window of four bytes, and asks
whether the character before the place was a blank. The window may start
anywhere, in the middle of a character or of an ill-formed part, and the bytes
in it may then be cut into other segments than the scan met there. The answer
is the right one all the same.

Looking back finds the character that decoding everything read would end in
(`Place.previous?_eq`). It is a blank exactly if, from some earlier offset of
the line, a blank is found that ends at the place (`Place.previous?_isWideBlank_iff`).
One direction needs that the blank found is an encoded character, and the other
that a character at the end of some bytes is their last, whatever stands before
it. So a word may start where the line starts, behind a byte that carries no
word on, and behind a blank that would be skipped.
-/

namespace DeclTags

open Utf8

namespace Place

variable {p : Place}

/-- **Looking back sees a blank where looking forward finds one** that ends at
the place. -/
theorem previous?_isWideBlank_iff :
    (∃ c, p.previous? = some c ∧ isWideBlank c = true) ↔
      ∃ q < p.offset, wideBlank? (p.line.drop q) = some (p.offset - q) := by
  rw [previous?_eq, ← take_offset]
  constructor
  · rintro ⟨c, hlast, hc⟩
    obtain ⟨start, hstart⟩ := lastChar?_eq_some hlast
    have hline : p.line = start ++ (String.utf8EncodeChar c ++ p.after) := by
      rw [← List.append_assoc, ← hstart, ← drop_offset, List.take_append_drop]
    have hoffset : p.offset = start.length + (String.utf8EncodeChar c).length := by
      rw [← List.length_append, ← hstart, List.length_take, Nat.min_eq_left p.offset_le_length]
    have hpos : 0 < (String.utf8EncodeChar c).length :=
      List.length_pos_iff.mpr (encodeChar_ne_nil c)
    refine ⟨start.length, by omega, ?_⟩
    rw [hline, List.drop_left, hoffset, Nat.add_sub_cancel_left]
    exact wideBlank?_encodeChar hc p.after
  · rintro ⟨q, hq, hblank⟩
    obtain ⟨c, more, hc, hdrop, hlength⟩ := wideBlank?_eq_some_iff.mp hblank
    refine ⟨c, ?_, hc⟩
    have htake : p.line.take p.offset = p.line.take q ++ String.utf8EncodeChar c := by
      rw [← Nat.add_sub_cancel' (Nat.le_of_lt hq), List.take_add, hdrop, hlength, List.take_left]
    rw [htake, lastChar?_append_encodeChar]

/-- A blank outside ASCII that ends at a place is skipped on the way there. -/
theorem skipBlanks_atOffset {q : Nat} (hq : q < p.offset)
    (h : wideBlank? (p.line.drop q) = some (p.offset - q)) :
    (p.atOffset q).skipBlanks = p.skipBlanks := by
  have hblank : blank? (p.atOffset q).after = some (p.offset - q) := by
    obtain ⟨c, more, hc, hdrop, hlength⟩ := wideBlank?_eq_some_iff.mp h
    rw [after_atOffset, hdrop, hlength]
    exact blank?_of_isWideBlank hc more
  rw [← skipBlanks_of_blank? hblank, forward_atOffset (Nat.le_of_lt hq)]

end Place

/-- **Looking back four bytes is as good as decoding everything read**, and it
agrees with looking forward. The character before a place is the one that the
last chunk of what has been read ends in. It is a blank outside ASCII if one is
found, from an earlier offset of the line, that ends at the place. And a word
may start at the start of the line, behind a byte that carries no word on, and
behind such a blank, which is one that is skipped where blanks are. -/
theorem looking_back_agrees (p : Place) :
    p.previous? = (chunks (p.line.take p.offset)).getLast?.bind Chunk.last? ∧
    ((∃ c, p.previous? = some c ∧ isWideBlank c = true) ↔
      ∃ q < p.offset, wideBlank? (p.line.drop q) = some (p.offset - q)) ∧
    (p.atWordStart = true ↔ p.offset = 0 ∨
      (∃ b, (p.line.take p.offset).getLast? = some b ∧ continuesWord b = false) ∨
      ∃ q < p.offset, wideBlank? (p.line.drop q) = some (p.offset - q) ∧
        (p.atOffset q).skipBlanks = p.skipBlanks) := by
  refine ⟨?_, Place.previous?_isWideBlank_iff, ?_⟩
  · rw [last?_chunks, p.take_offset, Place.previous?_eq]
  · have hstart : p.before = [] ↔ p.offset = 0 := by
      rw [p.offset_eq, List.length_eq_zero_iff]
    have hskipped : (∃ q < p.offset, wideBlank? (p.line.drop q) = some (p.offset - q)) ↔
        ∃ q < p.offset, wideBlank? (p.line.drop q) = some (p.offset - q) ∧
          (p.atOffset q).skipBlanks = p.skipBlanks :=
      exists_congr fun q => and_congr_right fun hq =>
        ⟨fun h => ⟨h, Place.skipBlanks_atOffset hq h⟩, And.left⟩
    rw [Place.atWordStart_iff, Place.previous?_isWideBlank_iff, hskipped, hstart, p.take_offset,
      List.getLast?_reverse]

end DeclTags
