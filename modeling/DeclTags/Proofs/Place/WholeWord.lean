import DeclTags.Proofs.Keyword
import DeclTags.Proofs.Place.Boundary
import Mathlib.Data.List.TakeWhile

/-!
# Keywords are whole words

A keyword is compared with a window of the line, and what stands at a place
is read by another rule, byte by byte up to the end of the word. The two
agree at every place, in the middle of a character as well as between two:
what is found is the word that starts there, and all of it.

So a keyword leaves no choice. The word at a place spells one keyword at most,
and its length is the length of what is found. A scan asks for keywords only
where a word may start, and within a word that is one place at most, for a
word that goes on has no second start (`Place.atWordStart_forward_of_lt`).

The words that are looked for are texts. A text is a word if its bytes are
bytes of words and no character of it is a blank (`isWord_ofString`); that
character by character is enough, since a word goes on with a whole character
or not at all.
-/

namespace DeclTags

open Utf8

/-- A character with bytes of words carries a word on, unless it is a blank. -/
theorem charGoesOn_of_continuesWord {c : Char}
    (hbytes : ∀ b ∈ String.utf8EncodeChar c, continuesWord b = true)
    (hblank : isWideBlank c = false) : charGoesOn c = true := by
  unfold charGoesOn
  split
  · rename_i h
    refine hbytes _ ?_
    rw [encodeChar_of_lt h]
    exact List.mem_singleton_self _
  · rw [hblank]
    rfl

/-- The word at the head of a text is its first characters that carry a word
on. -/
theorem wordAt_encode (text : List Char) :
    wordAt (encode text) = encode (text.takeWhile charGoesOn) := by
  induction text with
  | nil => rfl
  | cons c text ih =>
    rw [encode, List.flatMap_cons, wordAt_encodeChar_append, List.takeWhile_cons]
    split
    · rw [← encode, ih]
      rfl
    · rfl

/-- Characters that carry a word on make up a word. -/
theorem isWord_encode {text : List Char} (h : ∀ c ∈ text, charGoesOn c = true) :
    IsWord (encode text) := by
  rw [IsWord, wordAt_encode, List.takeWhile_eq_self_iff.mpr h]

/-- **A text is a word** if its bytes are bytes of words and no character of it
is a blank. -/
theorem isWord_ofString {text : String} (hbytes : ∀ b ∈ ofString text, continuesWord b = true)
    (hblank : ∀ c ∈ text.toList, isWideBlank c = false) : IsWord (ofString text) :=
  isWord_encode fun c hc =>
    charGoesOn_of_continuesWord (fun b hb => hbytes b (List.mem_flatMap.mpr ⟨c, hc, hb⟩))
      (hblank c hc)

namespace Keyword

variable {j k : Keyword} {p : Place}

/-- **A keyword is found where the word spells it**, and with the length of
that word. -/
theorem find?_eq_some_iff {n : Nat} :
    k.find? p = some n ↔ k.Spells p.word ∧ n = p.word.length := by
  rw [find?_eq]
  split
  · rename_i h
    rw [Option.some.injEq, and_iff_right h, eq_comm]
  · rename_i h
    exact ⟨fun hn => absurd hn (by simp), fun hn => absurd hn.1 h⟩

theorem isSome_find?_iff : (k.find? p).isSome = true ↔ k.Spells p.word := by
  rw [find?_eq]
  split <;> simp [*]

theorem atWordStart_of_isSome_at? (h : (k.at? p).isSome = true) : p.atWordStart = true := by
  unfold at? at h
  split at h
  · assumption
  · exact absurd h (by simp)

end Keyword

namespace Place

variable {p : Place} {n : Nat}

/-- The word at a place inside a word is the rest of that word. -/
theorem word_forward (h : n ≤ p.word.length) : (p.forward n).word = p.word.drop n := by
  obtain ⟨rest, he, hrest⟩ := exists_eq_wordAt_append p.after
  have hafter : (p.forward n).after = p.word.drop n ++ rest := by
    rw [after_forward, he]
    exact List.drop_append_of_le_length h
  have hword : IsWord (p.word.drop n) := by
    refine IsWord.of_append (a := p.word.take n) ?_
    rw [List.take_append_drop]
    exact isWord_wordAt p.after
  rw [word, hafter, wordAt_append_of_not_goesOn hword hrest]

/-- **A word that goes on has no second start.** -/
theorem atWordStart_forward_of_lt (hp : p.atWordStart = true) (hpos : 0 < n)
    (hn : n < p.word.length) : (p.forward n).atWordStart = false := by
  obtain ⟨rest, he, -⟩ := exists_eq_wordAt_append p.after
  have hlength : (p.word.take n).length = n := by
    rw [List.length_take]
    exact Nat.min_eq_left (Nat.le_of_lt hn)
  have hafter : p.after = p.word.take n ++ (p.word.drop n ++ rest) := by
    rw [← List.append_assoc, List.take_append_drop]
    exact he
  have hword : IsWord (p.word.take n ++ p.word.drop n) := by
    rw [List.take_append_drop]
    exact isWord_wordAt p.after
  have hne : p.word.take n ≠ [] := List.ne_nil_of_length_pos (by omega)
  have hinside := atWordStart_forward_of_isWord hp hafter hne hword
  rwa [hlength] at hinside

/-- **Within one word there is one place at most** where a word may start,
behind any place of it. -/
theorem eq_of_atWordStart_forward {m : Nat} (hm : (p.forward m).atWordStart = true)
    (hn : (p.forward n).atWordStart = true) (hmlt : m < p.word.length)
    (hnlt : n < p.word.length) : m = n := by
  -- the earlier place starts a word that the later one lies inside of
  have apart {i j : Nat} (hi : (p.forward i).atWordStart = true)
      (hj : (p.forward j).atWordStart = true) (hj' : j < p.word.length) : ¬ i < j := by
    intro hij
    have hword : (p.forward i).word = p.word.drop i := word_forward (by omega)
    have hinside := atWordStart_forward_of_lt hi (n := j - i) (by omega)
      (by rw [hword, List.length_drop]; omega)
    rw [forward_forward, Nat.add_sub_cancel' (Nat.le_of_lt hij), hj] at hinside
    exact Bool.noConfusion hinside
  exact Nat.le_antisymm (Nat.not_lt.mp (apart hn hm hmlt)) (Nat.not_lt.mp (apart hm hn hnlt))

end Place

/-- **Keywords are found as whole words, and without a choice.** A text that is
a word matches where it is the word of the line with its letters made small.
So a keyword is found where that word is one of its spellings, with the length
of the word; no place has two keywords; and of the places of one word, from
any of them on, one at most has a keyword where a word may start. -/
theorem keywords_whole_words (p : Place) :
    (∀ text : String, (∀ b ∈ ofString text, continuesWord b = true) →
      (∀ c ∈ text.toList, isWideBlank c = false) →
        (p.matchesWord (ofString text) = true ↔ foldCase p.word = ofString text)) ∧
    (∀ (k : Keyword) (n : Nat), k.find? p = some n ↔
      foldCase p.word ∈ k.spellings.map ofString ∧ n = p.word.length) ∧
    (∀ j k : Keyword, (j.find? p).isSome = true → (k.find? p).isSome = true → j = k) ∧
    ∀ (j k : Keyword) (m n : Nat), m < p.word.length → n < p.word.length →
      (j.at? (p.forward m)).isSome = true → (k.at? (p.forward n)).isSome = true → m = n := by
  refine ⟨fun text hbytes hblank => p.matchesWord_iff (isWord_ofString hbytes hblank),
    fun k n => Keyword.find?_eq_some_iff, fun j k hj hk => ?_, fun j k m n hm hn hj hk => ?_⟩
  · exact (Keyword.isSome_find?_iff.mp hj).unique (Keyword.isSome_find?_iff.mp hk)
  · exact Place.eq_of_atWordStart_forward (Keyword.atWordStart_of_isSome_at? hj)
      (Keyword.atWordStart_of_isSome_at? hk) hm hn

/-- Behind a no-break space, a keyword in capitals: it matches its spelling,
and no keyword is found inside it. -/
theorem keywords_whole_words_capitals :
    let p := (Place.start (ofString "x\u00A0ПЕРЕМ;")).forward 3
    p.matchesWord (ofString "перем") = true ∧ Keyword.var.find? p = some 10 ∧
      Keyword.sub.find? p = none ∧ ((Keyword.var.at? (p.forward 2)).isSome = false) := by
  intro p
  obtain ⟨hmatches, hfind, hunique, hplace⟩ := keywords_whole_words p
  have hvar : Keyword.var.find? p = some 10 := (hfind .var 10).mpr (by decide +kernel)
  have hstart : (Keyword.var.at? (p.forward 0)).isSome = true := by decide +kernel
  have hblank : "перем".toList.any isWideBlank = false := by decide +kernel
  have hmatch := hmatches "перем" (by decide +kernel) fun c hc =>
    Bool.eq_false_iff.mpr (List.any_eq_false.mp hblank c hc)
  refine ⟨hmatch.mpr (by decide +kernel), hvar, ?_, ?_⟩
  · cases hsub : Keyword.sub.find? p with
    | none => rfl
    | some n => exact absurd (hunique .var .sub (by rw [hvar]; rfl) (by rw [hsub]; rfl)) (by decide)
  · cases hinside : (Keyword.var.at? (p.forward 2)).isSome with
    | false => rfl
    | true =>
      exact absurd (hplace .var .var 0 2 (by decide +kernel) (by decide +kernel) hstart hinside)
        (by decide)

end DeclTags
