import DeclTags.Proofs.Alphabet.Folding
import DeclTags.Proofs.Blanking
import DeclTags.Proofs.Place.Boundary
import DeclTags.Proofs.Utf8.Ascii
import DeclTags.Proofs.Utf8.Chunks

/-!
# Slices of a line

A place has the bytes on both sides of it at hand. Given a line and an offset
instead, each question about a place has to cut the bytes that it needs out of
the line, and a cut may go wrong: it may end before it starts, or behind the
end of the line. Here such a cut is refused (`slice?`), and what is asked of a
place is asked once more of a line and an offset, with every cut made in this
way.

At the offset of a place nothing is refused, whatever the bytes are, and the
answers are those of the place. For most cuts that is plain, since a place is
in its line. The word at a place is read in a loop over offsets, each of which
cuts off the rest of the line, and it is cut out at the end. The window of two
bytes in which a Cyrillic letter is looked for may cut a character in two; it
never cuts one that it is looking for.
-/

namespace DeclTags

open Utf8

/-- **A slice of some bytes**, refused if it starts behind its end or ends
behind theirs. -/
def slice? (bytes : Bytes) (start stop : Nat) : Option Bytes :=
  if start ≤ stop ∧ stop ≤ bytes.length then some (bytes.extract start stop) else none

variable {bytes : Bytes} {m n : Nat}

theorem slice?_of_le (hstart : m ≤ n) (hstop : n ≤ bytes.length) :
    slice? bytes m n = some (bytes.extract m n) := if_pos ⟨hstart, hstop⟩

theorem slice?_zero (h : n ≤ bytes.length) : slice? bytes 0 n = some (bytes.take n) := by
  rw [slice?_of_le (Nat.zero_le n) h, List.extract_eq_take_drop, Nat.sub_zero, List.drop_zero]

theorem slice?_length (h : n ≤ bytes.length) :
    slice? bytes n bytes.length = some (bytes.drop n) := by
  rw [slice?_of_le h (Nat.le_refl _), List.extract_eq_take_drop,
    List.take_of_length_le (Nat.le_of_eq (List.length_drop ..))]

/-! ## Questions about an offset -/

namespace Offset

/-- A line up to its first NUL byte. -/
def cut? (line : Bytes) : Option Bytes := slice? line 0 (line.findIdx (· == 0))

/-- The character right before an offset, from a window of four bytes. -/
def previous? (line : Bytes) (n : Nat) : Option (Option Char) :=
  (slice? line 0 n).bind fun before =>
    (slice? before (before.length - 4) before.length).map fun window =>
      (chunks window).getLast?.bind Chunk.last?

/-- May a word start at an offset? -/
def atWordStart? (line : Bytes) (n : Nat) : Option Bool :=
  (slice? line 0 n).bind fun before =>
    match before.getLast? with
    | none => some true
    | some b =>
      if continuesWord b = false then some true
      else if b < 0x80 then some false
      else (previous? line n).map (·.any isWideBlank)

/-- Do some bytes start with a Cyrillic letter? Two of them are looked at. -/
def startsCyrillic? (bytes : Bytes) : Option Bool :=
  (slice? bytes 0 (min bytes.length 2)).map fun window =>
    ((decode? window).bind fun text => text.toList.head?).any isCyrillicLetter

/-- May a name start at an offset? -/
def atNameStart? (cyrillic : Bool) (line : Bytes) (n : Nat) : Option Bool :=
  match line.drop n with
  | [] => some false
  | b :: rest =>
    if startsWord b then some true
    else if cyrillic && 0x80 ≤ b then startsCyrillic? (b :: rest)
    else some false

/-- Where the word ends that carries on at an index of some bytes. -/
def wordEnd? (bytes : Bytes) (n : Nat) : Option Nat :=
  if h : n < bytes.length then
    if endsWord bytes[n] then some n
    else (slice? bytes n bytes.length).bind fun ahead =>
      if (wideBlank? ahead).isSome then some n else wordEnd? bytes (n + 1)
  else some n
termination_by bytes.length - n

/-- The word at an offset. -/
def word? (line : Bytes) (n : Nat) : Option Bytes :=
  (wordEnd? (line.drop n) 0).bind fun length => slice? line n (n + length)

/-! ## Nothing is refused -/

theorem cut?_eq (line : Bytes) : cut? line = some (cut line) := by
  have hnot : (fun b : UInt8 => b == 0) = fun b => !decide (b ≠ 0) := by
    funext b
    rw [decide_not, Bool.not_not]
    rfl
  rw [cut?, slice?_zero List.findIdx_le_length, cut, List.takeWhile_eq_take_findIdx_not, hnot]

theorem previous?_eq (p : Place) : previous? p.line p.offset = some p.previous? := by
  have hwindow : p.before.reverse.drop (p.before.reverse.length - 4)
      = (p.before.take 4).reverse := by
    rw [List.reverse_take, List.length_reverse]
  rw [previous?, slice?_zero p.offset_le_length, p.take_offset, Option.bind_some,
    slice?_length (Nat.sub_le _ _), Option.map_some, last?_chunks, hwindow]
  rfl

theorem atWordStart?_eq (p : Place) : atWordStart? p.line p.offset = some p.atWordStart := by
  rw [atWordStart?, slice?_zero p.offset_le_length, p.take_offset, Option.bind_some,
    List.getLast?_reverse, previous?_eq, Place.atWordStart]
  cases p.before with
  | nil => rfl
  | cons b more =>
    rw [List.head?_cons]
    dsimp only
    cases hb : continuesWord b with
    | false => rfl
    | true =>
      rw [if_neg (by decide)]
      by_cases hlt : b < 0x80
      · rw [if_pos hlt, decide_eq_false (UInt8.not_le.mpr hlt)]
        rfl
      · rw [if_neg hlt, decide_eq_true (UInt8.not_lt.mp hlt)]
        rfl

/-- The loop stops where the word ends. -/
theorem wordEnd?_eq (h : n ≤ bytes.length) :
    wordEnd? bytes n = some (n + (wordAt (bytes.drop n)).length) := by
  induction hk : bytes.length - n generalizing n with
  | zero =>
    have hn : ¬ n < bytes.length := by omega
    rw [wordEnd?, dif_neg hn, List.drop_of_length_le (by omega)]
    rfl
  | succ k ih =>
    have hn : n < bytes.length := by omega
    have hdrop := List.drop_eq_getElem_cons hn
    rw [wordEnd?, dif_pos hn, slice?_length h, Option.bind_some]
    cases hgo : wordGoesOn (bytes.drop n) with
    | true =>
      rw [hdrop] at hgo
      rw [hdrop, wordAt_cons_of_goesOn hgo, List.length_cons, ih (by omega) (by omega)]
      obtain ⟨hbyte, hblank⟩ := Bool.and_eq_true _ _ |>.mp hgo
      rw [endsWord, hbyte, Option.isNone_iff_eq_none.mp hblank]
      refine congrArg some ?_
      omega
    | false =>
      rw [wordAt_of_not_goesOn hgo]
      rw [hdrop, wordGoesOn_cons] at hgo
      rw [hdrop, endsWord]
      cases hbyte : continuesWord bytes[n] with
      | false => rfl
      | true =>
        rw [hbyte, Bool.true_and, Option.isNone_eq_false_iff] at hgo
        rw [hgo]
        rfl

theorem word?_eq (p : Place) : word? p.line p.offset = some p.word := by
  have hprefix := wordAt_isPrefix p.after
  have hlength : p.offset + (wordAt p.after).length ≤ p.line.length := by
    rw [p.length_line]
    exact Nat.add_le_add_left hprefix.length_le _
  rw [word?, p.drop_offset, wordEnd?_eq (Nat.zero_le _), Option.bind_some, List.drop_zero,
    Nat.zero_add, slice?_of_le (Nat.le_add_right _ _) hlength, List.extract_eq_take_drop,
    Nat.add_sub_cancel_left, p.drop_offset, ← List.prefix_iff_eq_take.mp hprefix]
  rfl

/-- A window of two bytes is a Cyrillic letter where one stands. -/
theorem cons_take_of_isCyrillicLetter {b : UInt8} {rest : Bytes} {c : Char}
    (hc : (first b rest).char? = some c) (h : isCyrillicLetter c = true) :
    b :: rest.take 1 = encode [c] := by
  obtain ⟨tail, hbytes, htail⟩ := first_bytes b rest
  have hencoded : b :: tail = String.utf8EncodeChar c := by rw [← hbytes, bytes_of_char hc]
  have hlength : tail.length = 1 := by
    have hboth := length_encodeChar_of_isCyrillicLetter h
    rw [← hencoded, List.length_cons] at hboth
    exact Nat.succ.inj hboth
  rw [← hlength, ← List.prefix_iff_eq_take.mp htail, hencoded, encode, List.flatMap_singleton]

/-- **The window shows a Cyrillic letter where one stands**, and nowhere else. -/
theorem startsCyrillic?_eq {b : UInt8} {rest : Bytes} (hb : 0x80 ≤ b) :
    startsCyrillic? (b :: rest) = some (startsCyrillic (b :: rest)) := by
  have hwindow : (b :: rest).take (min (b :: rest).length 2) = b :: rest.take 1 := by
    rw [Nat.min_comm, ← List.take_take, List.take_length]
    rfl
  rw [startsCyrillic?, slice?_zero (Nat.min_le_left _ _), hwindow, startsCyrillic,
    decide_eq_true hb, Bool.true_and, Option.map_some]
  refine congrArg some (Bool.eq_iff_iff.mpr ?_)
  rw [Option.any_eq_true, Option.any_eq_true]
  constructor
  · rintro ⟨c, hc, hletter⟩
    obtain ⟨text, htext, hhead⟩ := Option.bind_eq_some_iff.mp hc
    obtain ⟨d, hd, hdhead⟩ := exists_first_of_decode? htext
    obtain rfl := Option.some.inj (hhead.symm.trans hdhead)
    exact ⟨c, first_of_first_take hd, hletter⟩
  · rintro ⟨c, hc, hletter⟩
    refine ⟨c, ?_, hletter⟩
    rw [cons_take_of_isCyrillicLetter hc hletter, decode?_encode, Option.bind_some,
      String.toList_ofList]
    rfl

theorem atNameStart?_eq (cyrillic : Bool) (p : Place) :
    atNameStart? cyrillic p.line p.offset = some (p.atNameStart cyrillic) := by
  rw [atNameStart?, p.drop_offset, Place.atNameStart]
  cases p.after with
  | nil => rfl
  | cons b rest =>
    dsimp only
    rw [startsName]
    cases startsWord b with
    | true => rfl
    | false =>
      rw [if_neg Bool.false_ne_true, Bool.false_or]
      cases cyrillic with
      | false => rfl
      | true =>
        rw [Bool.true_and, Bool.true_and]
        by_cases hb : 0x80 ≤ b
        · rw [if_pos (decide_eq_true hb), startsCyrillic?_eq hb]
        · rw [if_neg (by rw [decide_eq_true_eq]; exact hb), startsCyrillic, decide_eq_false hb]
          rfl

/-- **What a place shows can be asked of its line and its offset**: nothing is
refused, and the answers are the same. -/
structure Answered (cyrillic : Bool) (p : Place) : Prop where
  /-- The character before it. -/
  previous? : previous? p.line p.offset = some p.previous?
  /-- Whether a word may start there. -/
  atWordStart : atWordStart? p.line p.offset = some p.atWordStart
  /-- Whether a name may start there. -/
  atNameStart : atNameStart? cyrillic p.line p.offset = some (p.atNameStart cyrillic)
  /-- The word there. -/
  word : word? p.line p.offset = some p.word

theorem answered (cyrillic : Bool) (p : Place) : Answered cyrillic p :=
  ⟨previous?_eq p, atWordStart?_eq p, atNameStart?_eq cyrillic p, word?_eq p⟩

end Offset

end DeclTags
