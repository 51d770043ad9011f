import DeclTags.Place
import DeclTags.Proofs.Alphabet.Folding

/-!
# The lexemes of a line

A line is a sequence of words, blanks and marks of punctuation. Blanks only
keep words apart, so what a line says is the list of its **lexemes**: its
words, each as long as it can be, and its marks, each one byte of ASCII.

`lexemes` is a reading of all bytes, not of well-formed text: a byte outside
ASCII that starts no blank belongs to a word whether or not it belongs to a
character. Exactly one of five things stands at the head of a line – its
end, a blank byte, a blank outside ASCII, a word, or a mark – and
`lexeme_induction` is the induction that this gives. Where no word goes on,
the lexemes of a line are those of its two parts (`lexemes_append`).
-/

namespace DeclTags

open Utf8

/-- **A lexeme**: a word or a mark of punctuation. -/
inductive Lexeme
  /-- A word, with its bytes. -/
  | word (bytes : Bytes)
  /-- A mark of punctuation. -/
  | mark (b : UInt8)
deriving DecidableEq

/-- The blank that some bytes start with, as the number of its bytes. -/
def blank? : Bytes → Option Nat
  | [] => none
  | b :: rest => if isBlankByte b then some 1 else wideBlank? (b :: rest)

/-- **The lexemes of some bytes**, from left to right. -/
def lexemes : Bytes → List Lexeme
  | [] => []
  | b :: rest =>
    match blank? (b :: rest) with
    | some n => lexemes (rest.drop (n - 1))
    | none =>
      if continuesWord b then .word (b :: wordAt rest) :: lexemes (rest.drop (wordAt rest).length)
      else .mark b :: lexemes rest
termination_by bytes => bytes.length
decreasing_by
  · rw [List.length_drop, List.length_cons]
    omega
  · rw [List.length_drop, List.length_cons]
    omega
  · rw [List.length_cons]
    omega

/-! ## What stands at the head of a line -/

theorem not_continuesWord_of_isBlankByte {b : UInt8} (h : isBlankByte b = true) :
    continuesWord b = false := by
  simp only [isBlankByte, Bool.or_eq_true, beq_iff_eq, or_assoc] at h
  rcases h with rfl | rfl | rfl | rfl | rfl <;> decide

theorem lt_of_not_continuesWord {b : UInt8} (h : continuesWord b = false) : b < 0x80 := by
  refine UInt8.not_le.mp (fun hle => ?_)
  rw [continuesWord_of_le hle] at h
  exact Bool.noConfusion h

theorem blank?_of_isBlankByte {b : UInt8} (h : isBlankByte b = true) (rest : Bytes) :
    blank? (b :: rest) = some 1 := by
  rw [blank?, if_pos h]

theorem not_isBlankByte_of_le {b : UInt8} (h : 0x80 ≤ b) : isBlankByte b = false := by
  cases hb : isBlankByte b with
  | false => rfl
  | true =>
    have hc := not_continuesWord_of_isBlankByte hb
    rw [continuesWord_of_le h] at hc
    exact Bool.noConfusion hc

theorem blank?_of_isWideBlank {c : Char} (h : isWideBlank c = true) (more : Bytes) :
    blank? (String.utf8EncodeChar c ++ more) = some (String.utf8EncodeChar c).length := by
  have hw := wideBlank?_encodeChar h more
  obtain ⟨b, tail, hc, hb, -⟩ := encodeChar_of_isWideBlank h
  rw [hc, List.cons_append] at hw ⊢
  rw [blank?, if_neg (by rw [not_isBlankByte_of_le hb]; exact Bool.false_ne_true), hw]

theorem blank?_of_goesOn {bytes : Bytes} (h : wordGoesOn bytes = true) : blank? bytes = none := by
  match bytes with
  | [] => rfl
  | b :: rest =>
    have hb : isBlankByte b = false := by
      cases hb : isBlankByte b with
      | false => rfl
      | true =>
        have hc := not_continuesWord_of_isBlankByte hb
        rw [continuesWord_of_goesOn h] at hc
        exact Bool.noConfusion hc
    rw [wordGoesOn_cons, Bool.and_eq_true] at h
    rw [blank?, if_neg (by rw [hb]; exact Bool.false_ne_true)]
    exact Option.isNone_iff_eq_none.mp h.2

theorem blank?_of_mark {b : UInt8} (hb : isBlankByte b = false) (hc : continuesWord b = false)
    (rest : Bytes) : blank? (b :: rest) = none := by
  rw [blank?, hb, if_neg Bool.false_ne_true, wideBlank?, if_pos (lt_of_not_continuesWord hc)]

/-- **Induction over the lexemes of a line.** A statement holds of all lines
if it holds of the empty one, and of a blank, of a word and of a mark in
front of bytes that it holds of; the bytes behind a word do not carry it
on. -/
theorem lexeme_induction {P : Bytes → Prop} (nil : P [])
    (blankByte : ∀ (b : UInt8) (rest : Bytes), isBlankByte b = true → P rest → P (b :: rest))
    (wideBlank : ∀ (c : Char) (rest : Bytes), isWideBlank c = true → P rest →
      P (String.utf8EncodeChar c ++ rest))
    (word : ∀ (w rest : Bytes), w ≠ [] → IsWord w → wordGoesOn rest = false → P rest →
      P (w ++ rest))
    (mark : ∀ (b : UInt8) (rest : Bytes), isBlankByte b = false → continuesWord b = false →
      P rest → P (b :: rest))
    (bytes : Bytes) : P bytes := by
  induction hn : bytes.length using Nat.strongRecOn generalizing bytes with
  | _ n ih =>
    subst hn
    match bytes with
    | [] => exact nil
    | b :: rest =>
      cases hb : isBlankByte b with
      | true => exact blankByte b rest hb (ih rest.length (Nat.lt_succ_self _) rest rfl)
      | false =>
        cases hc : continuesWord b with
        | false => exact mark b rest hb hc (ih rest.length (Nat.lt_succ_self _) rest rfl)
        | true =>
          cases hw : wideBlank? (b :: rest) with
          | some n =>
            obtain ⟨c, more, hcb, he, -⟩ := wideBlank?_eq_some_iff.mp hw
            rw [he]
            refine wideBlank c more hcb (ih more.length ?_ more rfl)
            obtain ⟨x, tail, hx, -⟩ := encodeChar_cons c
            rw [he, hx, List.cons_append, List.length_cons, List.length_append]
            omega
          | none =>
            have hg : wordGoesOn (b :: rest) = true := by
              rw [wordGoesOn_cons, hc, hw]
              rfl
            obtain ⟨more, he, hr⟩ := exists_eq_wordAt_append (b :: rest)
            have hne := wordAt_ne_nil_iff.mpr hg
            have hlen := congrArg List.length he
            rw [he]
            refine word _ more hne (isWord_wordAt _) hr (ih more.length ?_ more rfl)
            rw [List.length_append] at hlen
            have := List.length_pos_iff.mpr hne
            omega

/-! ## The lexemes at the head of a line -/

@[simp] theorem lexemes_nil : lexemes [] = [] := by
  rw [lexemes]

theorem lexemes_of_isBlankByte {b : UInt8} (h : isBlankByte b = true) (rest : Bytes) :
    lexemes (b :: rest) = lexemes rest := by
  rw [lexemes, blank?_of_isBlankByte h]
  rfl

theorem lexemes_of_isWideBlank {c : Char} (h : isWideBlank c = true) (rest : Bytes) :
    lexemes (String.utf8EncodeChar c ++ rest) = lexemes rest := by
  have hw := blank?_of_isWideBlank h rest
  obtain ⟨b, tail, hc, -⟩ := encodeChar_cons c
  rw [hc, List.cons_append] at hw ⊢
  rw [lexemes, hw]
  dsimp only
  rw [List.length_cons, Nat.add_sub_cancel, List.drop_left]

theorem lexemes_of_isWord {w rest : Bytes} (hne : w ≠ []) (hw : IsWord w)
    (hr : wordGoesOn rest = false) : lexemes (w ++ rest) = .word w :: lexemes rest := by
  match w with
  | [] => exact absurd rfl hne
  | b :: w =>
    obtain ⟨hb, hw⟩ := isWord_cons_iff.mp hw
    have ho := opensAfresh_of_not_goesOn hr
    have hg : wordGoesOn (b :: (w ++ rest)) = true := (wordGoesOn_append b w ho).trans hb
    rw [List.cons_append, lexemes, blank?_of_goesOn hg]
    dsimp only
    rw [if_pos (continuesWord_of_goesOn hg), wordAt_append_of_not_goesOn hw hr, List.drop_left]

theorem lexemes_of_mark {b : UInt8} (hb : isBlankByte b = false) (hc : continuesWord b = false)
    (rest : Bytes) : lexemes (b :: rest) = .mark b :: lexemes rest := by
  rw [lexemes, blank?_of_mark hb hc]
  dsimp only
  rw [if_neg (by rw [hc]; exact Bool.false_ne_true)]

/-! ## Lexemes and cuts -/

/-- A word that does not go on in one part does not go on over a cut. -/
theorem not_goesOn_append {x y : Bytes} (hx : wordGoesOn x = false) (hy : wordGoesOn y = false) :
    wordGoesOn (x ++ y) = false := by
  match x with
  | [] => exact hy
  | b :: x => exact (wordGoesOn_append b x (opensAfresh_of_not_goesOn hy)).trans hx

/-- **Where no word goes on, the lexemes are those of the two parts.** -/
theorem lexemes_append (x : Bytes) {y : Bytes} (hy : wordGoesOn y = false) :
    lexemes (x ++ y) = lexemes x ++ lexemes y := by
  induction x using lexeme_induction with
  | nil => rw [List.nil_append, lexemes_nil, List.nil_append]
  | blankByte b rest hb ih =>
    rw [List.cons_append, lexemes_of_isBlankByte hb, lexemes_of_isBlankByte hb, ih]
  | wideBlank c rest hc ih =>
    rw [List.append_assoc, lexemes_of_isWideBlank hc, lexemes_of_isWideBlank hc, ih]
  | word w rest hne hw hr ih =>
    rw [List.append_assoc, lexemes_of_isWord hne hw (not_goesOn_append hr hy),
      lexemes_of_isWord hne hw hr, ih]
    rfl
  | mark b rest hb hc ih =>
    rw [List.cons_append, lexemes_of_mark hb hc, lexemes_of_mark hb hc, ih]
    rfl

/-- The marks of a line are bytes of it. -/
theorem mem_of_mark_mem_lexemes {bytes : Bytes} {b : UInt8} (h : .mark b ∈ lexemes bytes) :
    b ∈ bytes := by
  induction bytes using lexeme_induction with
  | nil =>
    rw [lexemes_nil] at h
    exact absurd h List.not_mem_nil
  | blankByte c rest hc ih =>
    rw [lexemes_of_isBlankByte hc] at h
    exact List.mem_cons_of_mem c (ih h)
  | wideBlank c rest hc ih =>
    rw [lexemes_of_isWideBlank hc] at h
    exact List.mem_append_right _ (ih h)
  | word w rest hne hw hr ih =>
    rw [lexemes_of_isWord hne hw hr] at h
    rcases List.mem_cons.mp h with h | h
    · exact Lexeme.noConfusion h
    · exact List.mem_append_right w (ih h)
  | mark c rest hb hc ih =>
    rw [lexemes_of_mark hb hc] at h
    rcases List.mem_cons.mp h with h | h
    · rw [Lexeme.mark.inj h]
      exact List.mem_cons_self
    · exact List.mem_cons_of_mem c (ih h)

end DeclTags
