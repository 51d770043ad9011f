import DeclTags.Alphabet
import DeclTags.Proofs.Utf8.Encoding

/-!
# Words and blanks of a line

A word is read off the bytes from its start on, and whether a byte belongs
to it depends on the bytes behind that byte: they may make a blank of it.
This module says how far that dependence reaches. A blank outside ASCII is
an encoded character (`wideBlank?_eq_some_iff`), so it has the bytes of that
character and looks at nothing behind them. Hence a word that has been read
is a word by itself (`isWord_wordAt`), and it stays one in front of any
bytes that do not carry it on (`wordAt_append_of_not_goesOn`).

A continuation byte always carries a word on, whatever follows. Bytes that
do not carry a word on therefore open afresh, and cutting a line at the end
of a word cuts its segments too.
-/

namespace DeclTags

open Utf8

/-! ## Blank characters outside ASCII -/

/-- The numbers of the blank characters outside ASCII. -/
theorem isWideBlank_iff {c : Char} : isWideBlank c = true ↔
    c.toNat = 0x85 ∨ c.toNat = 0xA0 ∨ c.toNat = 0x1680 ∨
      (0x2000 ≤ c.toNat ∧ c.toNat ≤ 0x200A) ∨ c.toNat = 0x2028 ∨ c.toNat = 0x2029 ∨
      c.toNat = 0x202F ∨ c.toNat = 0x205F ∨ c.toNat = 0x3000 := by
  have hc : c.val.toNat = c.toNat := rfl
  simp only [isWideBlank, Bool.or_eq_true, Bool.and_eq_true, decide_eq_true_eq, beq_iff_eq,
    Char.le_def, Char.ext_iff, UInt32.le_iff_toNat_le, ← UInt32.toNat_inj, Char.reduceVal,
    UInt32.reduceToNat, hc, or_assoc]

/-- A blank outside ASCII starts with a byte outside ASCII. -/
theorem encodeChar_of_isWideBlank {c : Char} (h : isWideBlank c = true) :
    ∃ b tail, String.utf8EncodeChar c = b :: tail ∧ 0x80 ≤ b ∧ isContinuation b = false ∧
      ∀ x ∈ tail, isContinuation x = true := by
  obtain ⟨b, tail, hc, hb, ht, hs⟩ := encodeChar_cons c
  refine ⟨b, tail, hc, ?_, hb, ht⟩
  have := isWideBlank_iff.mp h
  exact UInt8.not_lt.mp (fun hlt => by have := hs.mpr hlt; omega)

/-- No byte of a blank outside ASCII is one of ASCII. -/
theorem le_of_mem_encodeChar_of_isWideBlank {c : Char} (h : isWideBlank c = true) :
    ∀ b ∈ String.utf8EncodeChar c, 0x80 ≤ b := by
  obtain ⟨b, tail, hc, hb, -, ht⟩ := encodeChar_of_isWideBlank h
  rw [hc]
  exact List.forall_mem_cons.mpr ⟨hb, fun x hx => le_of_isContinuation (ht x hx)⟩

/-- **A blank outside ASCII is an encoded character.** -/
theorem wideBlank?_eq_some_iff {bytes : Bytes} {n : Nat} :
    wideBlank? bytes = some n ↔ ∃ c more, isWideBlank c = true ∧
      bytes = String.utf8EncodeChar c ++ more ∧ n = (String.utf8EncodeChar c).length := by
  constructor
  · intro h
    match bytes with
    | [] => exact absurd h (by simp [wideBlank?])
    | b :: rest =>
      rw [wideBlank?] at h
      split at h
      · exact absurd h (by simp)
      · dsimp only at h
        split at h
        · rename_i hb
          obtain ⟨c, hc, hw⟩ := Option.any_eq_true _ _ |>.mp hb
          obtain ⟨tail, hs, more, rfl⟩ := first_bytes b rest
          refine ⟨c, more, hw, ?_, ?_⟩
          · rw [← bytes_of_char hc, hs, List.cons_append]
          · rw [← bytes_of_char hc, Option.some.inj h]
        · exact absurd h (by simp)
  · rintro ⟨c, more, hw, rfl, rfl⟩
    obtain ⟨b, tail, hc, hb, -⟩ := encodeChar_of_isWideBlank hw
    obtain ⟨b', tail', hc', hf⟩ := first_encodeChar c more
    obtain ⟨rfl, rfl⟩ := List.cons.inj (hc.symm.trans hc')
    rw [hc, List.cons_append, wideBlank?, if_neg (UInt8.not_lt.mpr hb)]
    simp [hf, hw]

theorem wideBlank?_encodeChar {c : Char} (h : isWideBlank c = true) (more : Bytes) :
    wideBlank? (String.utf8EncodeChar c ++ more) = some (String.utf8EncodeChar c).length :=
  wideBlank?_eq_some_iff.mpr ⟨c, more, h, rfl, rfl⟩

theorem wideBlank?_of_isContinuation {b : UInt8} (h : isContinuation b = true) (rest : Bytes) :
    wideBlank? (b :: rest) = none := by
  rw [Option.eq_none_iff_forall_ne_some]
  intro n hn
  obtain ⟨c, more, hw, he, -⟩ := wideBlank?_eq_some_iff.mp hn
  obtain ⟨b', tail, hc, -, hb', -⟩ := encodeChar_of_isWideBlank hw
  rw [hc, List.cons_append] at he
  rw [(List.cons.inj he).1, hb'] at h
  exact absurd h Bool.false_ne_true

theorem wideBlank?_append (b : UInt8) (rest : Bytes) {y : Bytes} (h : opensAfresh y = true) :
    wideBlank? (b :: (rest ++ y)) = wideBlank? (b :: rest) := by
  rw [wideBlank?, wideBlank?, first_append_of_opensAfresh b rest h]

/-! ## What carries a word on -/

theorem continuesWord_of_le {b : UInt8} (h : 0x80 ≤ b) : continuesWord b = true := by
  simp [continuesWord, h]

theorem wordGoesOn_cons (b : UInt8) (rest : Bytes) :
    wordGoesOn (b :: rest) = (continuesWord b && (wideBlank? (b :: rest)).isNone) := rfl

/-- A continuation byte carries a word on, whatever follows. -/
theorem wordGoesOn_of_isContinuation {b : UInt8} (h : isContinuation b = true) (rest : Bytes) :
    wordGoesOn (b :: rest) = true := by
  rw [wordGoesOn_cons, wideBlank?_of_isContinuation h,
    continuesWord_of_le (le_of_isContinuation h)]
  rfl

/-- **Where no word goes on, no character does.** -/
theorem opensAfresh_of_not_goesOn {bytes : Bytes} (h : wordGoesOn bytes = false) :
    opensAfresh bytes = true := by
  match bytes with
  | [] => rfl
  | b :: rest =>
    cases hb : isContinuation b with
    | true =>
      rw [wordGoesOn_of_isContinuation hb] at h
      exact Bool.noConfusion h
    | false => rw [opensAfresh_cons, hb]; rfl

theorem wordGoesOn_append (b : UInt8) (rest : Bytes) {y : Bytes} (h : opensAfresh y = true) :
    wordGoesOn (b :: (rest ++ y)) = wordGoesOn (b :: rest) := by
  rw [wordGoesOn_cons, wordGoesOn_cons, wideBlank?_append b rest h]

theorem wordGoesOn_of_isWideBlank {c : Char} (h : isWideBlank c = true) (more : Bytes) :
    wordGoesOn (String.utf8EncodeChar c ++ more) = false := by
  have hw := wideBlank?_encodeChar h more
  obtain ⟨b, tail, hc, -⟩ := encodeChar_of_isWideBlank h
  rw [hc, List.cons_append] at hw ⊢
  rw [wordGoesOn_cons, hw]
  exact Bool.and_false _

theorem wordGoesOn_of_not_continuesWord {b : UInt8} (h : continuesWord b = false)
    (rest : Bytes) : wordGoesOn (b :: rest) = false := by
  rw [wordGoesOn_cons, h]
  rfl

theorem continuesWord_of_goesOn {b : UInt8} {rest : Bytes} (h : wordGoesOn (b :: rest) = true) :
    continuesWord b = true := by
  rw [wordGoesOn_cons, Bool.and_eq_true] at h
  exact h.1

/-! ## Words -/

/-- **A word**: bytes that are carried on at each of them, to their end. -/
def IsWord (bytes : Bytes) : Prop := wordAt bytes = bytes

instance (bytes : Bytes) : Decidable (IsWord bytes) :=
  inferInstanceAs (Decidable (wordAt bytes = bytes))

theorem wordAt_cons_of_goesOn {b : UInt8} {rest : Bytes} (h : wordGoesOn (b :: rest) = true) :
    wordAt (b :: rest) = b :: wordAt rest := by
  rw [wordAt, if_pos h]

theorem wordAt_of_not_goesOn {bytes : Bytes} (h : wordGoesOn bytes = false) :
    wordAt bytes = [] := by
  match bytes with
  | [] => rfl
  | b :: rest => rw [wordAt, if_neg (by rw [h]; exact Bool.false_ne_true)]

theorem isWord_cons_iff {b : UInt8} {rest : Bytes} :
    IsWord (b :: rest) ↔ wordGoesOn (b :: rest) = true ∧ IsWord rest := by
  unfold IsWord
  cases h : wordGoesOn (b :: rest) with
  | true => simp [wordAt_cons_of_goesOn h]
  | false => simp [wordAt_of_not_goesOn h]

/-- What is left of a word is a word. -/
theorem IsWord.of_append {a b : Bytes} (h : IsWord (a ++ b)) : IsWord b := by
  induction a with
  | nil => exact h
  | cons x a ih => exact ih (isWord_cons_iff.mp h).2

theorem IsWord.continuesWord_of_mem {w : Bytes} (h : IsWord w) :
    ∀ b ∈ w, continuesWord b = true := by
  induction w with
  | nil => simp
  | cons x w ih =>
    obtain ⟨hx, hw⟩ := isWord_cons_iff.mp h
    intro b hb
    rcases List.mem_cons.mp hb with rfl | hb
    · exact continuesWord_of_goesOn hx
    · exact ih hw b hb

/-- Continuation bytes carry a word on to what stands behind them. -/
theorem wordAt_append_of_isContinuation {tail : Bytes}
    (h : ∀ x ∈ tail, isContinuation x = true) (more : Bytes) :
    wordAt (tail ++ more) = tail ++ wordAt more := by
  induction tail with
  | nil => rfl
  | cons x tail ih =>
    rw [List.cons_append,
      wordAt_cons_of_goesOn (wordGoesOn_of_isContinuation (h x List.mem_cons_self) _),
      ih (fun y hy => h y (List.mem_cons_of_mem x hy))]
    rfl

/-- The word at the head of bytes divided before a fresh start: it ends in the
first part, or it takes that part and goes on. -/
theorem wordAt_append (x : Bytes) {y : Bytes} (h : opensAfresh y = true) :
    wordAt (x ++ y) = if IsWord x then x ++ wordAt y else wordAt x := by
  induction x with
  | nil => rfl
  | cons b x ih =>
    have hg : wordGoesOn (b :: (x ++ y)) = wordGoesOn (b :: x) := wordGoesOn_append b x h
    cases hb : wordGoesOn (b :: x) with
    | true =>
      rw [List.cons_append, wordAt_cons_of_goesOn (hg.trans hb), wordAt_cons_of_goesOn hb, ih]
      simp only [isWord_cons_iff, hb, true_and]
      split <;> rfl
    | false =>
      rw [List.cons_append, wordAt_of_not_goesOn (hg.trans hb), wordAt_of_not_goesOn hb,
        if_neg (by rw [isWord_cons_iff, hb]; simp)]

/-- **A word and what does not carry it on.** -/
theorem wordAt_append_of_not_goesOn {w rest : Bytes} (hw : IsWord w)
    (hr : wordGoesOn rest = false) : wordAt (w ++ rest) = w := by
  rw [wordAt_append w (opensAfresh_of_not_goesOn hr), if_pos hw, wordAt_of_not_goesOn hr,
    List.append_nil]

/-- The bytes behind a word do not carry it on. -/
theorem exists_eq_wordAt_append (bytes : Bytes) :
    ∃ rest, bytes = wordAt bytes ++ rest ∧ wordGoesOn rest = false := by
  induction bytes with
  | nil => exact ⟨[], rfl, rfl⟩
  | cons b bytes ih =>
    cases h : wordGoesOn (b :: bytes) with
    | true =>
      obtain ⟨rest, he, hr⟩ := ih
      refine ⟨rest, ?_, hr⟩
      rw [wordAt_cons_of_goesOn h, List.cons_append, ← he]
    | false => exact ⟨b :: bytes, by rw [wordAt_of_not_goesOn h]; rfl, h⟩

/-- **A word that has been read is a word by itself.** -/
theorem isWord_wordAt (bytes : Bytes) : IsWord (wordAt bytes) := by
  obtain ⟨rest, he, hr⟩ := exists_eq_wordAt_append bytes
  have hw := wordAt_append (wordAt bytes) (opensAfresh_of_not_goesOn hr)
  rw [← he] at hw
  by_cases h : IsWord (wordAt bytes)
  · exact h
  · rw [if_neg h] at hw
    exact hw.symm

theorem wordAt_ne_nil_iff {bytes : Bytes} : wordAt bytes ≠ [] ↔ wordGoesOn bytes = true := by
  match bytes with
  | [] => simp [wordAt, wordGoesOn]
  | b :: rest =>
    cases h : wordGoesOn (b :: rest) with
    | true => simp [wordAt_cons_of_goesOn h]
    | false => simp [wordAt_of_not_goesOn h]

end DeclTags
