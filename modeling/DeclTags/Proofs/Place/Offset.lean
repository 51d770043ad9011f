import DeclTags.Place

/-!
# Places by their offsets

A place is a line cut in two, and the line and the number of bytes before the
cut say which place it is (`ext_offset`). Everything that a place shows can
therefore be asked of the line: what has been read is the line up to the
offset, and what is still to come is the line behind it. The offset is never
beyond the end (`offset_le_length`), and a move adds to it.
-/

namespace DeclTags

namespace Place

variable {p q : Place} {n : Nat}

/-! ## Moving on -/

theorem before_forward (n : Nat) (p : Place) :
    (p.forward n).before = (p.after.take n).reverse ++ p.before := rfl

/-- Moving on in two steps is moving on in one. -/
theorem forward_forward (m n : Nat) (p : Place) :
    (p.forward m).forward n = p.forward (m + n) := by
  refine Place.ext ?_ ?_
  · rw [before_forward, before_forward, before_forward, after_forward, List.take_add,
      List.reverse_append, List.append_assoc]
  · rw [after_forward, after_forward, after_forward, List.drop_drop]

theorem forward_zero (p : Place) : p.forward 0 = p := Place.ext rfl rfl

theorem forward_of_after_eq_nil {p : Place} (h : p.after = []) (n : Nat) : p.forward n = p := by
  refine Place.ext ?_ ?_
  · rw [before_forward, h, List.take_nil]
    rfl
  · rw [after_forward, h, List.drop_nil]

theorem toEnd_of_length {p : Place} {n : Nat} (h : p.after.length = n) : p.toEnd = p.forward n := by
  subst h
  rfl

theorem toEnd_forward (n : Nat) (p : Place) : (p.forward n).toEnd = p.toEnd := by
  refine Place.ext ?_ ?_
  · show ((p.after.drop n).take (p.after.drop n).length).reverse
        ++ ((p.after.take n).reverse ++ p.before)
      = (p.after.take p.after.length).reverse ++ p.before
    rw [List.take_length, List.take_length, ← List.append_assoc, ← List.reverse_append,
      List.take_append_drop]
  · rw [after_toEnd, after_toEnd]

/-- Moving on does not move back. -/
theorem offset_le_forward (n : Nat) (p : Place) : p.offset ≤ (p.forward n).offset := by
  rw [offset_forward]
  exact Nat.le_add_right _ _

/-- **The blanks that are skipped are there**, all of them. -/
theorem offset_skipBlanks (p : Place) : p.skipBlanks.offset = p.offset + blanksAt p.after := by
  rw [skipBlanks, offset_forward, Nat.min_eq_left (blanksAt_le p.after)]

/-- **The bytes of a word are there**, all of them. -/
theorem offset_skipWord (p : Place) : p.skipWord.offset = p.offset + p.word.length := by
  have hle : p.word.length ≤ p.after.length := (wordAt_isPrefix p.after).length_le
  rw [skipWord, offset_forward, Nat.min_eq_left hle]

/-! ## Line and offset -/

/-- What has been read is the line up to the offset. -/
theorem take_offset (p : Place) : p.line.take p.offset = p.before.reverse :=
  List.take_left' (by rw [List.length_reverse, p.offset_eq])

/-- What is still to be read is the line behind the offset. -/
theorem drop_offset (p : Place) : p.line.drop p.offset = p.after :=
  List.drop_left' (by rw [List.length_reverse, p.offset_eq])

theorem length_line (p : Place) : p.line.length = p.offset + p.after.length := by
  rw [line, List.length_append, List.length_reverse, p.offset_eq]

/-- **A place is in its line.** -/
theorem offset_le_length (p : Place) : p.offset ≤ p.line.length := by
  rw [length_line]
  exact Nat.le_add_right _ _

theorem after_ne_nil_iff : p.after ≠ [] ↔ p.offset < p.line.length := by
  rw [length_line, ← List.length_pos_iff]
  omega

/-- **A place is given by its line and its offset.** -/
theorem ext_offset (hline : p.line = q.line) (hoffset : p.offset = q.offset) : p = q := by
  refine ext (List.reverse_inj.mp ?_) ?_
  · rw [← take_offset, ← take_offset, hline, hoffset]
  · rw [← drop_offset, ← drop_offset, hline, hoffset]

/-! ## Places of a line -/

theorem line_atOffset (n : Nat) (p : Place) : (p.atOffset n).line = p.line := line_forward n _

theorem after_atOffset (n : Nat) (p : Place) : (p.atOffset n).after = p.line.drop n := rfl

theorem offset_atOffset (n : Nat) (p : Place) : (p.atOffset n).offset = min n p.line.length := by
  rw [atOffset, offset_forward]
  exact Nat.zero_add _

/-- A move goes to a later offset. -/
theorem forward_eq_atOffset (n : Nat) (p : Place) : p.forward n = p.atOffset (p.offset + n) := by
  refine ext_offset ?_ ?_
  · rw [line_forward, line_atOffset]
  · rw [offset_forward, offset_atOffset, length_line]
    omega

/-- From an earlier offset of the line, a move of the difference leads to a
place. -/
theorem forward_atOffset (h : n ≤ p.offset) : (p.atOffset n).forward (p.offset - n) = p := by
  have hn : min n p.line.length = n := Nat.min_eq_left (Nat.le_trans h p.offset_le_length)
  refine ext_offset ?_ ?_
  · rw [line_forward, line_atOffset]
  · rw [forward_eq_atOffset, offset_atOffset, line_atOffset, offset_atOffset, hn,
      Nat.add_sub_cancel' h]
    exact Nat.min_eq_left p.offset_le_length

end Place

end DeclTags
