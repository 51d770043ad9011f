import DeclTags.Proofs.Scan.Reading
import DeclTags.Proofs.Folding.Line

/-!
# The tags of a folded source

The language ignores letter case, and so does the scanner: folding a source
before it is scanned changes nothing but the letters of the names found
(`tags_foldCase`). The scanner does not fold the names that it finds, so
they come out in small letters there and as they were written here.

The proof compares outlines. A keyword is recognized by its small form, and
where a name may start is a matter of characters, not of bytes: a Cyrillic
letter may change its first byte when it is folded, and a byte inside it
starts no name before or after. Decoding with substitution commutes with
folding because an ill-formed part stays one.
-/

namespace DeclTags

open Utf8

/-- A text with its letters made small. -/
def foldText (text : String) : String := lossy (foldCase (ofString text))

/-- A declaration with the letters of its names made small. -/
def Tag.small (t : Tag) : Tag :=
  { t with name := foldText t.name, scope? := t.scope?.map foldText }

/-- An outline with the letters of its function made small. -/
def Outline.small (o : Outline) : Outline := { o with enclosing? := o.enclosing?.map foldText }

/-! ## Folding texts -/

/-- **A text is folded character by character.** -/
theorem foldText_eq (text : String) :
    foldText text = String.ofList (text.toList.map smallForm) := by
  rw [foldText, ofString, foldCase_encode, lossy_encode]

/-- **Decoding commutes with folding**, also where the bytes are ill-formed. -/
theorem lossy_foldCase (bytes : Bytes) : lossy (foldCase bytes) = foldText (lossy bytes) := by
  rw [foldText_eq, lossy, lossy, String.toList_ofList, segments_foldCase, List.map_map,
    List.map_map]
  refine congrArg String.ofList (List.map_congr_left fun s _ => ?_)
  show (s.char?.map smallForm).getD '\uFFFD' = smallForm (s.char?.getD '\uFFFD')
  cases s.char? with
  | none => decide
  | some c => rfl

/-! ## Names in folded words -/

theorem startsWord_iff {b : UInt8} : startsWord b = true
    ↔ (0x41 ≤ b.toNat ∧ b.toNat ≤ 0x5A) ∨ (0x61 ≤ b.toNat ∧ b.toNat ≤ 0x7A) ∨ b.toNat = 0x5F := by
  simp only [startsWord, Bool.or_eq_true, Bool.and_eq_true, decide_eq_true_eq, beq_iff_eq,
    UInt8.le_iff_toNat_le, ← UInt8.toNat_inj, UInt8.reduceToNat, or_assoc]

/-- **The characters that names may start with.** -/
theorem startsName_encodeChar_iff {cyrillic : Bool} {c : Char} {more : Bytes} :
    startsName cyrillic (String.utf8EncodeChar c ++ more) = true
      ↔ ((0x41 ≤ c.toNat ∧ c.toNat ≤ 0x5A) ∨ (0x61 ≤ c.toNat ∧ c.toNat ≤ 0x7A) ∨
        c.toNat = 0x5F) ∨ (cyrillic = true ∧ isCyrillicLetter c = true) := by
  obtain ⟨b, tail, hc, hf⟩ := first_encodeChar c more
  obtain ⟨b', tail', hc', -, -, hlt⟩ := encodeChar_cons c
  obtain ⟨rfl, rfl⟩ := List.cons.inj (hc.symm.trans hc')
  rw [hc, List.cons_append, startsName, startsCyrillic, hf]
  simp only [Bool.or_eq_true, Bool.and_eq_true, decide_eq_true_eq, Option.any_some, startsWord_iff]
  by_cases h : c.toNat < 0x80
  · -- a character of ASCII is its byte
    have hb : b.toNat = c.toNat := by
      rw [encodeChar_of_lt h] at hc
      rw [← (List.cons.inj hc).1]
      exact toNat_ofNat_of_lt (Nat.lt_trans h (by decide))
    have hnot : isCyrillicLetter c = false := by
      rw [Bool.eq_false_iff]
      exact fun hcyr => absurd (isCyrillicLetter_iff.mp hcyr).1 (by omega)
    simp [hb, hnot]
  · have hle : 0x80 ≤ b := UInt8.not_lt.mp (fun hb => h (hlt.mpr hb))
    have hb : 0x80 ≤ b.toNat := UInt8.le_iff_toNat_le.mp hle
    have hnb : ¬ ((0x41 ≤ b.toNat ∧ b.toNat ≤ 0x5A) ∨ (0x61 ≤ b.toNat ∧ b.toNat ≤ 0x7A) ∨
        b.toNat = 0x5F) := by omega
    have hnc : ¬ ((0x41 ≤ c.toNat ∧ c.toNat ≤ 0x5A) ∨ (0x61 ≤ c.toNat ∧ c.toNat ≤ 0x7A) ∨
        c.toNat = 0x5F) := by omega
    simp only [hle, hnb, hnc, true_and]

theorem not_startsName_of_illFormed (cyrillic : Bool) {b : UInt8} {tail more : Bytes}
    (h : first b (tail ++ more) = ⟨b :: tail, none⟩) :
    startsName cyrillic (b :: (tail ++ more)) = false := by
  have hb : 0x80 ≤ b.toNat := UInt8.le_iff_toNat_le.mp (le_of_illFormed h)
  have hw : startsWord b = false := by
    rw [Bool.eq_false_iff, ne_eq, startsWord_iff]
    omega
  rw [startsName, startsCyrillic, h, hw]
  simp

/-- Letter case does not decide where a name may start. -/
@[simp] theorem startsName_foldCase (cyrillic : Bool) (bytes : Bytes) :
    startsName cyrillic (foldCase bytes) = startsName cyrillic bytes := by
  cases bytes using char_induction with
  | nil => rw [foldCase_nil]
  | char c more =>
    have hletters : ((0x41 ≤ (smallForm c).toNat ∧ (smallForm c).toNat ≤ 0x5A) ∨
        (0x61 ≤ (smallForm c).toNat ∧ (smallForm c).toNat ≤ 0x7A) ∨ (smallForm c).toNat = 0x5F)
        ↔ ((0x41 ≤ c.toNat ∧ c.toNat ≤ 0x5A) ∨ (0x61 ≤ c.toNat ∧ c.toNat ≤ 0x7A) ∨
          c.toNat = 0x5F) := by
      rw [toNat_smallForm]
      split <;> omega
    rw [foldCase_encodeChar_append, Bool.eq_iff_iff, startsName_encodeChar_iff,
      startsName_encodeChar_iff, isCyrillicLetter_smallForm, hletters]
  | illFormed b tail more h =>
    have hf : first b (tail ++ foldCase more) = ⟨b :: tail, none⟩ := by
      rw [first_append_congr (by rw [h]) (head?_foldCase more), h]
    rw [foldCase_of_illFormed h, not_startsName_of_illFormed cyrillic h,
      not_startsName_of_illFormed cyrillic hf]

/-- No name starts inside a character. -/
theorem nameIn?_of_isContinuation {cyrillic : Bool} {tail : Bytes}
    (h : ∀ x ∈ tail, isContinuation x = true) (more : Bytes) :
    nameIn? cyrillic (tail ++ more) = nameIn? cyrillic more := by
  induction tail with
  | nil => rfl
  | cons x tail ih =>
    have hf : first x (([] : Bytes) ++ (tail ++ more)) = ⟨[x], none⟩ :=
      first_of_isContinuation (h x List.mem_cons_self) _
    have hn := not_startsName_of_illFormed cyrillic hf
    rw [List.nil_append] at hn
    rw [List.cons_append, nameIn?, if_neg (ne_true_of_eq_false hn)]
    exact ih (fun y hy => h y (List.mem_cons_of_mem x hy))

/-- **The name in a folded word is the folded name.** -/
theorem nameIn?_foldCase (cyrillic : Bool) (w : Bytes) :
    nameIn? cyrillic (foldCase w) = (nameIn? cyrillic w).map foldCase := by
  have peel {b : UInt8} {tail : Bytes} (ht : ∀ x ∈ tail, isContinuation x = true) (more : Bytes) :
      nameIn? cyrillic (b :: tail ++ more)
        = if startsName cyrillic (b :: tail ++ more) then some (b :: tail ++ more)
          else nameIn? cyrillic more := by
    rw [List.cons_append, nameIn?, nameIn?_of_isContinuation ht]
  induction w using char_induction with
  | nil =>
    rw [foldCase_nil]
    rfl
  | char c more ih =>
    obtain ⟨b, tail, hc, -, ht, -⟩ := encodeChar_cons c
    obtain ⟨b', tail', hc', -, ht', -⟩ := encodeChar_cons (smallForm c)
    have hs := startsName_foldCase cyrillic (String.utf8EncodeChar c ++ more)
    have he := foldCase_encodeChar_append c more
    rw [he] at hs ⊢
    rw [hc', peel ht', ← hc', hs, ih, ← he, hc, peel ht]
    split <;> rfl
  | illFormed b tail more h ih =>
    have ht : ∀ x ∈ tail, isContinuation x = true := isContinuation_of_mem_first (by rw [h])
    have hf : first b (tail ++ foldCase more) = ⟨b :: tail, none⟩ := by
      rw [first_append_congr (by rw [h]) (head?_foldCase more), h]
    rw [foldCase_of_illFormed h, nameIn?, not_startsName_of_illFormed cyrillic hf, nameIn?,
      not_startsName_of_illFormed cyrillic h, if_neg Bool.false_ne_true, if_neg Bool.false_ne_true,
      nameIn?_of_isContinuation ht, nameIn?_of_isContinuation ht, ih]

/-! ## The outline of folded lexemes -/

namespace Outline

variable {cyrillic : Bool} {line : Nat} {o : Outline}

theorem small_afterMark (o : Outline) (b : UInt8) :
    o.small.afterMark b = (o.afterMark b).small := by
  by_cases hsemi : b = Ascii.semicolon
  · subst hsemi
    rw [afterMark_semicolon, afterMark_semicolon, statementPhase, statementPhase, small,
      Option.isSome_map]
    rfl
  · by_cases hcomma : b = Ascii.comma ∧ o.phase = .behindVariable
    · rw [hcomma.1, afterMark_comma hcomma.2, afterMark_comma (o := o.small) hcomma.2]
      rfl
    · rw [afterMark_of_ne hsemi hcomma, afterMark_of_ne (o := o.small) hsemi hcomma]

/-- **A folded word says what the word says.** -/
theorem small_afterWord (o : Outline) (w : Bytes) :
    o.small.afterWord cyrillic line (foldCase w)
      = ((o.afterWord cyrillic line w).1.small,
        (o.afterWord cyrillic line w).2.map Tag.small) := by
  obtain ⟨phase, enclosing?⟩ := o
  unfold afterWord
  dsimp only [small]
  cases phase with
  | outside | body =>
    simp only [Keyword.spells_foldCase_iff]
    split
    · rfl
    · split <;> rfl
  | beforeFunction | beforeVariable =>
    dsimp only
    rw [nameIn?_foldCase]
    cases nameIn? cyrillic w with
    | none => rfl
    | some name =>
      rw [Option.map_some]
      dsimp only
      rw [lossy_foldCase]
      rfl
  | behindVariable => rfl

theorem small_read (xs : List (Nat × Lexeme)) :
    read cyrillic o.small (xs.map fun x => (x.1, x.2.small))
      = ((read cyrillic o xs).1.small, (read cyrillic o xs).2.map Tag.small) := by
  induction xs generalizing o with
  | nil => rfl
  | cons x xs ih =>
    obtain ⟨line, x⟩ := x
    have hnext : o.small.next cyrillic line x.small
        = ((o.next cyrillic line x).1.small, (o.next cyrillic line x).2.map Tag.small) := by
      cases x with
      | word w => exact small_afterWord o w
      | mark b => exact Prod.ext (small_afterMark o b) rfl
    rw [List.map_cons, read_cons, read_cons, hnext, ih, List.map_append]
    cases (o.next cyrillic line x).2 <;> rfl

end Outline

/-- The declarations in folded lines are those in the lines, folded. -/
theorem outlineTags_foldCase (cyrillic : Bool) (lines : List Bytes) :
    outlineTags cyrillic (lines.map foldCase) = (outlineTags cyrillic lines).map Tag.small := by
  rw [outlineTags, numbered_foldCase]
  exact congrArg Prod.snd (Outline.small_read (o := {}) (numbered 1 lines))

/-- **Letter case does not matter.** A folded source has the tags of the
source, each with its name and scope folded. -/
theorem tags_foldCase (rules : Rules) (lines : List Bytes) :
    tags rules (lines.map foldCase) = (tags rules lines).map Tag.small := by
  rw [tags_eq_outlineTags, tags_eq_outlineTags, blanked, blankLines_foldCase,
    outlineTags_foldCase, List.filter_map]
  rfl

end DeclTags
