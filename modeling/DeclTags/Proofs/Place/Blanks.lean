import DeclTags.Proofs.Alphabet.Blank
import DeclTags.Proofs.Place.Offset

/-!
# Blanks behind a place

A place behind the blanks is found one blank at a time: the blanks behind a
place are the first of them and the blanks behind that one
(`skipBlanks_of_blank?`), and where no blank stands there is nothing to skip.
-/

namespace DeclTags

open Utf8

namespace Place

theorem skipBlanks_of_blank? {p : Place} {n : Nat} (h : blank? p.after = some n) :
    (p.forward n).skipBlanks = p.skipBlanks := by
  rw [skipBlanks, after_forward, forward_forward, skipBlanks, blanksAt_of_blank? h]

theorem skipBlanks_of_not_blank {p : Place} (h : blank? p.after = none) : p.skipBlanks = p := by
  rw [skipBlanks, blanksAt_of_not_blank h, forward_zero]

end Place

end DeclTags
