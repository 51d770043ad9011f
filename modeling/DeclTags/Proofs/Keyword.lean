import DeclTags.Keyword
import DeclTags.Scan.Step
import DeclTags.Proofs.Alphabet.Folding

/-!
# Keywords are words

A keyword is looked for by folding a window of the line as long as the
keyword. The window is cut by length, so it may end inside a character and
its folding may stop short there. It does not matter: a keyword stands at a
place exactly where the word that starts there is one of its spellings in
some letter case (`find?_eq`), and then it is that whole word. So nothing
about keywords depends on windows, and the rest of the theory speaks of
words only.
-/

namespace DeclTags

/-- **Does this word stand here?** It does where the word on the line is the
word when its letters are made small. -/
theorem Place.matchesWord_iff {word : Bytes} (hw : IsWord word) (p : Place) :
    p.matchesWord word = true ↔ foldCase p.word = word := by
  unfold matchesWord
  simp only [Bool.and_eq_true, beq_iff_eq, Bool.not_eq_true']
  constructor
  · rintro ⟨⟨-, hend⟩, hfold⟩
    -- the window is a word because its folding is one, so it is the word here
    have hwindow : IsWord (p.after.take word.length) := by
      rw [← isWord_foldCase_iff, hfold]
      exact hw
    rw [Place.word, ← List.take_append_drop word.length p.after,
      wordAt_append_of_not_goesOn hwindow hend, hfold]
  · rintro rfl
    obtain ⟨rest, he, hr⟩ := exists_eq_wordAt_append p.after
    have hl : (foldCase p.word).length = (wordAt p.after).length := length_foldCase _
    have ht : p.after.take (foldCase p.word).length = p.word := by
      rw [hl]
      exact (congrArg (List.take _) he).trans List.take_left
    have hd : p.after.drop (foldCase p.word).length = rest := by
      rw [hl]
      exact (congrArg (List.drop _) he).trans List.drop_left
    rw [ht, hd]
    exact ⟨⟨hl.symm, hr⟩, rfl⟩

namespace Keyword

/-- **Is this word a spelling of the keyword**, in any letter case? -/
def Spells (k : Keyword) (word : Bytes) : Prop :=
  foldCase word ∈ k.spellings.map Utf8.ofString

instance (k : Keyword) (word : Bytes) : Decidable (k.Spells word) :=
  inferInstanceAs (Decidable (_ ∈ _))

theorem isWord_of_mem_spellings {k : Keyword} {w : Bytes}
    (h : w ∈ k.spellings.map Utf8.ofString) : IsWord w := by
  cases k <;> revert w <;> decide

/-- **A text spells a keyword** where its small form is a spelling. -/
theorem spells_ofString_iff {k : Keyword} {text : String} :
    k.Spells (Utf8.ofString text)
      ↔ String.ofList (text.toList.map smallForm) ∈ k.spellings := by
  have hsmall : foldCase (Utf8.ofString text)
      = Utf8.ofString (String.ofList (text.toList.map smallForm)) := by
    rw [Utf8.ofString, foldCase_encode, Utf8.ofString, String.toList_ofList]
  have hlossy (s : String) : Utf8.lossy (Utf8.ofString s) = s := by
    rw [Utf8.ofString, Utf8.lossy_encode, String.ofList_toList]
  rw [Spells, hsmall]
  constructor
  · intro h
    obtain ⟨s, hs, he⟩ := List.mem_map.mp h
    have heq := congrArg Utf8.lossy he
    rw [hlossy, hlossy] at heq
    rwa [← heq]
  · exact fun h => List.mem_map_of_mem h

/-- Letter case does not matter to a spelling. -/
theorem spells_foldCase_iff {k : Keyword} {word : Bytes} :
    k.Spells (foldCase word) ↔ k.Spells word := by
  unfold Spells
  rw [foldCase_foldCase]

/-- A spelling is a word, and not the empty one. -/
theorem Spells.isWord {k : Keyword} {word : Bytes} (h : k.Spells word) : IsWord word :=
  isWord_foldCase_iff.mp (isWord_of_mem_spellings h)

theorem Spells.ne_nil {k : Keyword} {word : Bytes} (h : k.Spells word) : word ≠ [] := by
  rintro rfl
  obtain ⟨s, hs, he⟩ := List.mem_map.mp h
  exact ofString_ne_nil_of_mem_spellings hs (he.trans foldCase_nil)

/-- **No word is a spelling of two keywords.** -/
theorem Spells.unique {j k : Keyword} {word : Bytes} (hj : j.Spells word) (hk : k.Spells word) :
    j = k := by
  unfold Spells at hj hk
  revert hj hk
  generalize foldCase word = w
  cases j <;> cases k <;> revert w <;> decide

/-- **A keyword stands where the word is a spelling of it**, and then it is
the whole word. -/
theorem find?_eq (k : Keyword) (p : Place) :
    k.find? p = if k.Spells p.word then some p.word.length else none := by
  unfold find?
  cases hf : (k.spellings.map Utf8.ofString).find? p.matchesWord with
  | none =>
    rw [if_neg, Option.map_none]
    intro h
    have hn := List.find?_eq_none.mp hf _ h
    exact hn ((p.matchesWord_iff (isWord_of_mem_spellings h)).mpr rfl)
  | some w =>
    have hm := List.mem_of_find?_eq_some hf
    have hw := List.find?_some hf
    obtain rfl := (p.matchesWord_iff (isWord_of_mem_spellings hm)).mp hw
    rw [if_pos (show k.Spells p.word from hm), Option.map_some, length_foldCase]

end Keyword

namespace State

/-- Where no word starts, no keyword is found. -/
theorem keywordAt?_of_not_atWordStart {p : Place} (h : p.atWordStart = false)
    (keywords : List Keyword) : keywordAt? p keywords = none := by
  unfold keywordAt?
  rw [List.findSome?_eq_none_iff]
  intro k _
  rw [Keyword.at?, h]
  rfl

/-- Where a word starts, the first keyword that it spells is found. -/
theorem keywordAt?_of_atWordStart {p : Place} (h : p.atWordStart = true)
    (keywords : List Keyword) :
    keywordAt? p keywords
      = (keywords.find? fun k => k.Spells p.word).map fun k => (k, p.word.length) := by
  unfold keywordAt?
  induction keywords with
  | nil => rfl
  | cons k rest ih =>
    rw [List.findSome?_cons, List.find?_cons, Keyword.at?, if_pos h, Keyword.find?_eq]
    by_cases hk : k.Spells p.word
    · simp [hk]
    · simp only [hk, if_false, Option.map_none, decide_false]
      exact ih

end State

end DeclTags
