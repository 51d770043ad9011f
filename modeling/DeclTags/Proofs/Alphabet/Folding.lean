import DeclTags.Proofs.Alphabet.Word

/-!
# Letter case and the structure of a line

Making letters small changes bytes, also the first byte of a character:
`Р` and `р` do not even start alike. What it does not change is where
characters, words and blanks begin and end. The segments of a folded line
are the folded segments of the line (`segments_foldCase`), ill-formed parts
included, and everything else follows from that: folding keeps lengths,
folding twice is folding once, the word at the head of a folded line is the
folded word (`wordAt_foldCase`), and a name may start in it exactly where it
may start in the line.

The delicate case is an ill-formed part. It ends where the next byte does
not continue it, and that byte belongs to what is folded. But a byte that
starts a character is still one that starts a character when its letter is
made small, and a byte that starts none is left alone (`head?_foldCase`).
-/

namespace DeclTags

open Utf8

/-! ## Small forms -/

theorem toNat_smallForm (c : Char) : (smallForm c).toNat =
    if (0x41 ≤ c.toNat ∧ c.toNat ≤ 0x5A) ∨ (0x410 ≤ c.toNat ∧ c.toNat ≤ 0x42F)
      then c.toNat + 0x20 else c.toNat := by
  have hc : c.val.toNat = c.toNat := rfl
  unfold smallForm
  simp only [Char.le_def, UInt32.le_iff_toNat_le, Char.reduceVal, UInt32.reduceToNat, hc]
  split
  · rw [toNat_ofNat_of_isValidChar]
    exact .inl (by omega)
  · rfl

/-- A small form is its own small form. -/
theorem smallForm_smallForm (c : Char) : smallForm (smallForm c) = smallForm c := by
  refine Char.toNat_inj.mp ?_
  rw [toNat_smallForm (smallForm c), toNat_smallForm c]
  repeat' split
  all_goals omega

@[simp] theorem isWideBlank_smallForm (c : Char) : isWideBlank (smallForm c) = isWideBlank c := by
  rw [Bool.eq_iff_iff, isWideBlank_iff, isWideBlank_iff, toNat_smallForm]
  split <;> omega

theorem isCyrillicLetter_iff {c : Char} : isCyrillicLetter c = true ↔
    0x400 ≤ c.toNat ∧ c.toNat ≤ 0x4FF ∧ ¬ (0x482 ≤ c.toNat ∧ c.toNat ≤ 0x489) := by
  have hc : c.val.toNat = c.toNat := rfl
  simp only [isCyrillicLetter, Bool.and_eq_true, Bool.not_eq_true', Bool.and_eq_false_iff,
    decide_eq_true_eq, decide_eq_false_iff_not, Char.le_def, UInt32.le_iff_toNat_le,
    Char.reduceVal, UInt32.reduceToNat, hc]
  omega

/-- A Cyrillic letter has two bytes. -/
theorem length_encodeChar_of_isCyrillicLetter {c : Char} (h : isCyrillicLetter c = true) :
    (String.utf8EncodeChar c).length = 2 := by
  have hc := isCyrillicLetter_iff.mp h
  unfold String.utf8EncodeChar
  rw [show c.val.toNat = c.toNat from rfl]
  dsimp only
  rw [if_neg (by omega), if_pos (by omega)]
  rfl

@[simp] theorem isCyrillicLetter_smallForm (c : Char) :
    isCyrillicLetter (smallForm c) = isCyrillicLetter c := by
  rw [Bool.eq_iff_iff, isCyrillicLetter_iff, isCyrillicLetter_iff, toNat_smallForm]
  split <;> omega

/-- Small forms have as many bytes. -/
theorem length_encodeChar_smallForm (c : Char) :
    (String.utf8EncodeChar (smallForm c)).length = (String.utf8EncodeChar c).length := by
  have hs := toNat_smallForm c
  split at hs
  · rename_i hc
    rcases hc with hascii | hrussian
    · rw [encodeChar_of_lt (by omega), encodeChar_of_lt (by omega)]
      rfl
    · have hletter : isCyrillicLetter c = true := isCyrillicLetter_iff.mpr (by omega)
      have hsmall : isCyrillicLetter (smallForm c) = true := isCyrillicLetter_iff.mpr (by omega)
      rw [length_encodeChar_of_isCyrillicLetter hletter,
        length_encodeChar_of_isCyrillicLetter hsmall]
  · rw [Char.toNat_inj.mp hs]

/-! ## Characters and words -/

/-- Does a character carry a word on? -/
def charGoesOn (c : Char) : Bool :=
  if c.toNat < 0x80 then continuesWord (UInt8.ofNat c.toNat) else !isWideBlank c

/-- **A word goes on with a whole character or not at all.** -/
theorem wordGoesOn_encodeChar (c : Char) (more : Bytes) :
    wordGoesOn (String.utf8EncodeChar c ++ more) = charGoesOn c := by
  unfold charGoesOn
  split
  · rename_i h
    have hb : UInt8.ofNat c.toNat < 0x80 := by
      rw [UInt8.lt_iff_toNat_lt, toNat_ofNat_of_lt (by omega)]
      exact h
    rw [encodeChar_of_lt h, List.cons_append, List.nil_append, wordGoesOn_cons, wideBlank?,
      if_pos hb]
    exact Bool.and_true _
  · rename_i h
    cases hw : isWideBlank c with
    | true => rw [wordGoesOn_of_isWideBlank hw]; rfl
    | false =>
      obtain ⟨b, tail, hc, -, -, hs⟩ := encodeChar_cons c
      have hb : 0x80 ≤ b := UInt8.not_lt.mp (fun hlt => h (hs.mpr hlt))
      obtain ⟨b', tail', hc', hf⟩ := first_encodeChar c more
      obtain ⟨rfl, rfl⟩ := List.cons.inj (hc.symm.trans hc')
      rw [hc, List.cons_append, wordGoesOn_cons, continuesWord_of_le hb, wideBlank?,
        if_neg (UInt8.not_lt.mpr hb)]
      simp [hf, hw]

theorem wordAt_encodeChar_append (c : Char) (more : Bytes) :
    wordAt (String.utf8EncodeChar c ++ more)
      = if charGoesOn c then String.utf8EncodeChar c ++ wordAt more else [] := by
  have hg := wordGoesOn_encodeChar c more
  split
  · rename_i h
    obtain ⟨b, tail, hc, -, ht, -⟩ := encodeChar_cons c
    rw [h, hc, List.cons_append] at hg
    rw [hc, List.cons_append, wordAt_cons_of_goesOn hg, wordAt_append_of_isContinuation ht]
    rfl
  · rename_i h
    exact wordAt_of_not_goesOn (hg.trans (Bool.eq_false_iff.mpr h))

/-- An ill-formed part starts outside ASCII. -/
theorem le_of_illFormed {b : UInt8} {tail more : Bytes}
    (h : first b (tail ++ more) = ⟨b :: tail, none⟩) : 0x80 ≤ b := by
  refine UInt8.not_lt.mp (fun hb => ?_)
  rw [first_one (Nat.le_of_lt_succ (UInt8.lt_iff_toNat_lt.mp hb))] at h
  exact absurd (congrArg Segment.char? h) (by simp)

/-- **An ill-formed part carries a word on.** -/
theorem wordGoesOn_of_illFormed {b : UInt8} {tail more : Bytes}
    (h : first b (tail ++ more) = ⟨b :: tail, none⟩) :
    wordGoesOn (b :: (tail ++ more)) = true := by
  have hb := le_of_illFormed h
  rw [wordGoesOn_cons, continuesWord_of_le hb, wideBlank?, if_neg (UInt8.not_lt.mpr hb), h]
  rfl

theorem wordAt_of_illFormed {b : UInt8} {tail more : Bytes}
    (h : first b (tail ++ more) = ⟨b :: tail, none⟩) :
    wordAt (b :: (tail ++ more)) = b :: (tail ++ wordAt more) := by
  rw [wordAt_cons_of_goesOn (wordGoesOn_of_illFormed h),
    wordAt_append_of_isContinuation (isContinuation_of_mem_first (by rw [h]))]

@[simp] theorem charGoesOn_smallForm (c : Char) : charGoesOn (smallForm c) = charGoesOn c := by
  have hs := toNat_smallForm c
  unfold charGoesOn
  rw [isWideBlank_smallForm]
  by_cases hu : (0x41 ≤ c.toNat ∧ c.toNat ≤ 0x5A) ∨ (0x410 ≤ c.toNat ∧ c.toNat ≤ 0x42F)
  · rw [if_pos hu] at hs
    by_cases hlt : c.toNat < 0x80
    · -- a letter of ASCII and its small form both start words
      rw [if_pos hlt, if_pos (by omega), hs]
      have letter (n : Nat) (hn : n < 0x100)
          (hl : (0x41 ≤ n ∧ n ≤ 0x5A) ∨ (0x61 ≤ n ∧ n ≤ 0x7A)) :
          continuesWord (UInt8.ofNat n) = true := by
        simp only [continuesWord, startsWord, Bool.or_eq_true, Bool.and_eq_true,
          decide_eq_true_eq, UInt8.le_iff_toNat_le, toNat_ofNat_of_lt hn, UInt8.reduceToNat]
        omega
      rw [letter _ (by omega) (by omega), letter _ (by omega) (by omega)]
    · rw [if_neg hlt, if_neg (by omega)]
  · rw [if_neg hu] at hs
    rw [hs]

/-! ## Folding segment by segment -/

/-- A segment with its letter made small, as a segment. -/
def Utf8.Segment.small (s : Segment) : Segment := ⟨foldSegment s, s.char?.map smallForm⟩

@[simp] theorem foldCase_nil : foldCase [] = [] := by
  rw [foldCase, segments_nil]
  rfl

theorem foldCase_encodeChar_append (c : Char) (more : Bytes) :
    foldCase (String.utf8EncodeChar c ++ more)
      = String.utf8EncodeChar (smallForm c) ++ foldCase more := by
  rw [foldCase, segments_encodeChar_append]
  rfl

theorem foldCase_encode (text : List Char) :
    foldCase (encode text) = encode (text.map smallForm) := by
  induction text with
  | nil => exact foldCase_nil
  | cons c text ih =>
    show foldCase (String.utf8EncodeChar c ++ encode text)
      = String.utf8EncodeChar (smallForm c) ++ encode (text.map smallForm)
    rw [foldCase_encodeChar_append, ih]

theorem foldCase_of_illFormed {b : UInt8} {tail more : Bytes}
    (h : first b (tail ++ more) = ⟨b :: tail, none⟩) :
    foldCase (b :: (tail ++ more)) = b :: (tail ++ foldCase more) := by
  rw [foldCase, segments_cons_of_first (by rw [h]), h]
  rfl

/-- **Folding commutes with a cut of the segments.** -/
theorem foldCase_append_of_opensAfresh (x : Bytes) {y : Bytes} (h : opensAfresh y = true) :
    foldCase (x ++ y) = foldCase x ++ foldCase y := by
  rw [foldCase, segments_append_of_opensAfresh x h, List.flatMap_append]
  rfl

/-- Folding leaves the first byte alone, or it is one that starts a character
before and after. -/
theorem head?_foldCase (bytes : Bytes) :
    opensAfresh (foldCase bytes) = true ∨ (foldCase bytes).head? = bytes.head? := by
  cases bytes using char_induction with
  | nil => exact .inr (by rw [foldCase_nil])
  | char c more =>
    rw [foldCase_encodeChar_append]
    exact .inl (opensAfresh_encodeChar _ _)
  | illFormed b tail more h =>
    rw [foldCase_of_illFormed h]
    exact .inr rfl

/-- **The segments of a folded byte string are its folded segments.** -/
theorem segments_foldCase (bytes : Bytes) :
    segments (foldCase bytes) = (segments bytes).map Segment.small := by
  induction bytes using char_induction with
  | nil => rw [foldCase_nil, segments_nil, List.map_nil]
  | char c more ih =>
    rw [foldCase_encodeChar_append, segments_encodeChar_append, segments_encodeChar_append, ih]
    rfl
  | illFormed b tail more h ih =>
    have hf : first b (tail ++ foldCase more) = ⟨b :: tail, none⟩ := by
      rw [first_append_congr (by rw [h]) (head?_foldCase more), h]
    rw [foldCase_of_illFormed h, segments_cons_of_first (by rw [hf]),
      segments_cons_of_first (by rw [h]), hf, h, ih]
    rfl

/-- Folding keeps the number of bytes. -/
@[simp] theorem length_foldCase (bytes : Bytes) : (foldCase bytes).length = bytes.length := by
  induction bytes using char_induction with
  | nil => rw [foldCase_nil]
  | char c more ih =>
    rw [foldCase_encodeChar_append, List.length_append, List.length_append, ih,
      length_encodeChar_smallForm]
  | illFormed b tail more h ih =>
    rw [foldCase_of_illFormed h, List.length_cons, List.length_append, ih, List.length_cons,
      List.length_append]

/-- **Folding twice is folding once.** -/
theorem foldCase_foldCase (bytes : Bytes) : foldCase (foldCase bytes) = foldCase bytes := by
  rw [foldCase, segments_foldCase, List.flatMap_map, foldCase]
  refine congrArg (List.flatMap · (segments bytes)) (funext fun s => ?_)
  cases hc : s.char? with
  | none => simp [foldSegment, Segment.small, hc]
  | some c => simp [foldSegment, Segment.small, hc, smallForm_smallForm]

/-! ## Words and names of a folded line -/

@[simp] theorem wordGoesOn_foldCase (bytes : Bytes) :
    wordGoesOn (foldCase bytes) = wordGoesOn bytes := by
  cases bytes using char_induction with
  | nil => rw [foldCase_nil]
  | char c more =>
    rw [foldCase_encodeChar_append, wordGoesOn_encodeChar, wordGoesOn_encodeChar,
      charGoesOn_smallForm]
  | illFormed b tail more h =>
    have hf : first b (tail ++ foldCase more) = ⟨b :: tail, none⟩ := by
      rw [first_append_congr (by rw [h]) (head?_foldCase more), h]
    rw [foldCase_of_illFormed h, wordGoesOn_of_illFormed h, wordGoesOn_of_illFormed hf]

/-- **The word of a folded line is the folded word.** -/
theorem wordAt_foldCase (bytes : Bytes) : wordAt (foldCase bytes) = foldCase (wordAt bytes) := by
  induction bytes using char_induction with
  | nil => rw [foldCase_nil, wordAt, foldCase_nil]
  | char c more ih =>
    rw [foldCase_encodeChar_append, wordAt_encodeChar_append, wordAt_encodeChar_append,
      charGoesOn_smallForm]
    split
    · rw [foldCase_encodeChar_append, ih]
    · rw [foldCase_nil]
  | illFormed b tail more h ih =>
    have hf : first b (tail ++ foldCase more) = ⟨b :: tail, none⟩ := by
      rw [first_append_congr (by rw [h]) (head?_foldCase more), h]
    -- the word behind the part is empty or starts like the bytes behind it
    have hw : first b (tail ++ wordAt more) = ⟨b :: tail, none⟩ := by
      rw [first_append_congr (by rw [h]) ?_, h]
      obtain ⟨t, ht⟩ := wordAt_isPrefix more
      cases hm : wordAt more with
      | nil => exact .inl rfl
      | cons x w => exact .inr (by rw [← ht, hm]; rfl)
    rw [foldCase_of_illFormed h, wordAt_of_illFormed hf, wordAt_of_illFormed h,
      foldCase_of_illFormed hw, ih]

theorem isWord_foldCase_iff {w : Bytes} : IsWord (foldCase w) ↔ IsWord w := by
  unfold IsWord
  rw [wordAt_foldCase]
  constructor
  · intro h
    refine (wordAt_isPrefix w).eq_of_length ?_
    rw [← length_foldCase (wordAt w), h, length_foldCase]
  · intro h
    rw [h]

end DeclTags
