import DeclTags.Proofs.Outline
import DeclTags.Proofs.Blanking

/-!
# The lexemes of a folded line

Letter case may be folded before a line is read or after: cutting a line at
its first NUL byte, blanking its comments and strings, and dividing it into
lexemes all commute with folding. For lexemes this is plain, since folding
keeps words words and blanks blanks.

Blanking is less so. It looks at single bytes, and in a comment it stops at
any of them, while folding looks at segments. The two meet in the **stops**
of a line, the bytes of ASCII that carry no word on. Delimiters are stops, a
stop is its own small form, and between two stops folding keeps the number
of bytes and makes no new stop. So a line is taken apart into its stops and
the runs between them (`run_induction`), and each is dealt with as a whole.
-/

namespace DeclTags

open Utf8

/-! ## Stops and runs -/

/-- Bytes that open with a stop, or none. -/
def opensWithStop : Bytes → Bool
  | [] => true
  | b :: _ => !continuesWord b

theorem opensAfresh_of_opensWithStop {bytes : Bytes} (h : opensWithStop bytes = true) :
    opensAfresh bytes = true := by
  match bytes with
  | [] => rfl
  | b :: rest =>
    have hb : continuesWord b = false := Bool.not_eq_true' _ |>.mp h
    rw [opensAfresh_cons, isContinuation_of_lt (lt_of_not_continuesWord hb)]
    rfl

/-- **Induction over the stops of a line.** A statement holds of all lines if
it holds of the empty one, of a stop in front of bytes that it holds of, and
of a run of other bytes in front of a stop. -/
theorem run_induction {P : Bytes → Prop} (nil : P [])
    (stop : ∀ (b : UInt8) (rest : Bytes), continuesWord b = false → P rest → P (b :: rest))
    (run : ∀ (u rest : Bytes), u ≠ [] → (∀ b ∈ u, continuesWord b = true) →
      opensWithStop rest = true → P rest → P (u ++ rest))
    (bytes : Bytes) : P bytes := by
  -- a run in progress is carried along until the next stop
  have general : ∀ (bytes u : Bytes), (∀ b ∈ u, continuesWord b = true) → P (u ++ bytes) := by
    intro bytes
    induction bytes with
    | nil =>
      intro u hu
      by_cases hne : u = []
      · rw [hne]
        exact nil
      · exact run u [] hne hu rfl nil
    | cons b rest ih =>
      intro u hu
      cases hb : continuesWord b with
      | true =>
        have h := ih (u ++ [b]) (fun c hc => by
          rcases List.mem_append.mp hc with hc | hc
          · exact hu c hc
          · rw [List.mem_singleton.mp hc]
            exact hb)
        rwa [List.append_assoc] at h
      | false =>
        have hrest : P (b :: rest) :=
          stop b rest hb (ih [] (fun c hc => absurd hc List.not_mem_nil))
        by_cases hne : u = []
        · rw [hne]
          exact hrest
        · exact run u (b :: rest) hne hu (by rw [opensWithStop, hb]; rfl) hrest
  exact general bytes [] (fun c hc => absurd hc List.not_mem_nil)

/-! ## Folding stops and runs -/

theorem encodeChar_ofNat_of_lt {b : UInt8} (h : b < 0x80) :
    String.utf8EncodeChar (Char.ofNat b.toNat) = [b] := by
  have hn : b.toNat < 0x80 := UInt8.lt_iff_toNat_lt.mp h
  have hc : (Char.ofNat b.toNat).toNat = b.toNat :=
    toNat_ofNat_of_isValidChar (.inl (Nat.lt_trans hn (by decide)))
  rw [encodeChar_of_lt (by rw [hc]; exact hn), hc, UInt8.ofNat_toNat]

/-- **A stop is its own small form.** -/
theorem foldCase_stop {b : UInt8} (h : continuesWord b = false) (rest : Bytes) :
    foldCase (b :: rest) = b :: foldCase rest := by
  have hlt := lt_of_not_continuesWord h
  have hn : b.toNat < 0x80 := UInt8.lt_iff_toNat_lt.mp hlt
  have hc : (Char.ofNat b.toNat).toNat = b.toNat :=
    toNat_ofNat_of_isValidChar (.inl (Nat.lt_trans hn (by decide)))
  have hsmall : smallForm (Char.ofNat b.toNat) = Char.ofNat b.toNat := by
    refine Char.toNat_inj.mp ?_
    simp only [continuesWord, startsWord, Bool.or_eq_false_iff, Bool.and_eq_false_iff,
      decide_eq_false_iff_not, UInt8.le_iff_toNat_le, UInt8.reduceToNat] at h
    rw [toNat_smallForm, hc, if_neg (by omega)]
  have he := foldCase_encodeChar_append (Char.ofNat b.toNat) rest
  rw [hsmall, encodeChar_ofNat_of_lt hlt] at he
  exact he

/-- The bytes of a character are no stops, unless it is a stop of ASCII. -/
theorem forall_continuesWord_encodeChar_iff {c : Char} :
    (∀ b ∈ String.utf8EncodeChar c, continuesWord b = true)
      ↔ (c.toNat < 0x80 → charGoesOn c = true) := by
  by_cases hc : c.toNat < 0x80
  · rw [encodeChar_of_lt hc, charGoesOn, if_pos hc]
    simp [hc]
  · refine ⟨fun _ h => absurd h hc, fun _ b hb => ?_⟩
    obtain ⟨x, tail, he, -, ht, hx⟩ := encodeChar_cons c
    rw [he] at hb
    rcases List.mem_cons.mp hb with rfl | hb
    · exact continuesWord_of_le (UInt8.not_lt.mp (fun hlt => hc (hx.mpr hlt)))
    · exact continuesWord_of_le (le_of_isContinuation (ht b hb))

/-- **Folding makes no stop.** -/
theorem continuesWord_of_mem_foldCase {u : Bytes} (h : ∀ b ∈ u, continuesWord b = true) :
    ∀ b ∈ foldCase u, continuesWord b = true := by
  induction u using char_induction with
  | nil =>
    rw [foldCase_nil]
    exact h
  | char c more ih =>
    have hc := forall_continuesWord_encodeChar_iff.mp (fun b hb => h b (List.mem_append_left _ hb))
    have hsmall : ∀ b ∈ String.utf8EncodeChar (smallForm c), continuesWord b = true := by
      refine forall_continuesWord_encodeChar_iff.mpr (fun hlt => ?_)
      rw [charGoesOn_smallForm]
      refine hc ?_
      rw [toNat_smallForm] at hlt
      split at hlt <;> omega
    intro b hb
    rw [foldCase_encodeChar_append] at hb
    rcases List.mem_append.mp hb with hb | hb
    · exact hsmall b hb
    · exact ih (fun b hb => h b (List.mem_append_right _ hb)) b hb
  | illFormed b tail more hf ih =>
    intro x hx
    rw [foldCase_of_illFormed hf, ← List.cons_append] at hx
    rw [← List.cons_append] at h
    rcases List.mem_append.mp hx with hx | hx
    · exact h x (List.mem_append_left _ hx)
    · exact ih (fun b hb => h b (List.mem_append_right _ hb)) x hx

/-- Folding changes a line run by run. -/
theorem foldCase_run (u : Bytes) {rest : Bytes} (h : opensWithStop rest = true) :
    foldCase (u ++ rest) = foldCase u ++ foldCase rest :=
  foldCase_append_of_opensAfresh u (opensAfresh_of_opensWithStop h)

theorem foldCase_ne_nil {u : Bytes} (h : u ≠ []) : foldCase u ≠ [] := by
  rw [← List.length_pos_iff, length_foldCase]
  exact List.length_pos_iff.mpr h

/-- Whether a stop stands at the head of a line does not depend on letter
case. -/
theorem isPrefixOf_foldCase {d : UInt8} (hd : continuesWord d = false) (bytes : Bytes) :
    [d].isPrefixOf (foldCase bytes) = [d].isPrefixOf bytes := by
  have inside {u : Bytes} (hne : u ≠ []) (hu : ∀ b ∈ u, continuesWord b = true) (rest : Bytes) :
      [d].isPrefixOf (u ++ rest) = false := by
    obtain ⟨x, u, rfl⟩ := List.exists_cons_of_ne_nil hne
    have hx : ¬ d = x := (Rules.ne_of_continuesWord (hu x List.mem_cons_self) hd).symm
    simp [List.isPrefixOf, hx]
  cases bytes using run_induction with
  | nil => rw [foldCase_nil]
  | stop b rest hb =>
    rw [foldCase_stop hb]
    rfl
  | run u rest hne hu hr =>
    rw [foldCase_run u hr, inside hne hu,
      inside (foldCase_ne_nil hne) (continuesWord_of_mem_foldCase hu)]

/-! ## Cutting a folded line -/

theorem cut_run {u : Bytes} (h : ∀ b ∈ u, continuesWord b = true) (rest : Bytes) :
    cut (u ++ rest) = u ++ cut rest :=
  List.takeWhile_append_of_pos (fun b hb =>
    decide_eq_true (Rules.ne_of_continuesWord (h b hb) (by decide)))

theorem cut_cons (b : UInt8) (rest : Bytes) :
    cut (b :: rest) = if b = 0 then [] else b :: cut rest := by
  unfold cut
  by_cases hb : b = 0 <;> simp [hb]

theorem opensWithStop_cut {rest : Bytes} (h : opensWithStop rest = true) :
    opensWithStop (cut rest) = true := by
  match rest with
  | [] => rfl
  | b :: rest =>
    rw [cut_cons]
    split
    · rfl
    · exact h

theorem cut_foldCase (line : Bytes) : cut (foldCase line) = foldCase (cut line) := by
  induction line using run_induction with
  | nil => rw [foldCase_nil]; exact foldCase_nil.symm
  | stop b rest hb ih =>
    rw [foldCase_stop hb, cut_cons, cut_cons]
    split
    · rw [foldCase_nil]
    · rw [foldCase_stop hb, ih]
  | run u rest hne hu hr ih =>
    rw [foldCase_run u hr, cut_run (continuesWord_of_mem_foldCase hu), ih, cut_run hu,
      foldCase_run u (opensWithStop_cut hr)]

/-! ## Blanking a folded line -/

variable (rules : Rules)

/-- What blanking makes of bytes without a stop. -/
def veil : Mode → Bytes → Bytes
  | .code, u => u
  | _, u => List.replicate u.length filler

theorem foldCase_replicate_filler (n : Nat) :
    foldCase (List.replicate n filler) = List.replicate n filler := by
  induction n with
  | zero => exact foldCase_nil
  | succ n ih => rw [List.replicate_succ, foldCase_stop (by decide), ih]

theorem foldCase_veil (mode : Mode) (u : Bytes) :
    foldCase (veil mode u) = veil mode (foldCase u) := by
  cases mode with
  | code => rfl
  | comment | string =>
    show foldCase (List.replicate u.length filler) = List.replicate (foldCase u).length filler
    rw [length_foldCase, foldCase_replicate_filler]

theorem blanking_run (mode : Mode) {u : Bytes} (h : ∀ b ∈ u, continuesWord b = true)
    (rest : Bytes) :
    blanking rules mode (u ++ rest)
      = (veil mode u ++ (blanking rules mode rest).1, (blanking rules mode rest).2) := by
  cases mode with
  | code => exact blanking_code_append rules (ne_delimiters_of_continuesWord h) rest
  | comment =>
    induction u with
    | nil => rfl
    | cons b u ih =>
      have hb : ¬ Ascii.star = b :=
        (Rules.ne_of_continuesWord (h b List.mem_cons_self) (by decide)).symm
      rw [List.cons_append, blanking_comment_of_not_close rules (by simp [List.isPrefixOf, hb]),
        ih (fun c hc => h c (List.mem_cons_of_mem b hc))]
      rfl
  | string =>
    induction u with
    | nil => rfl
    | cons b u ih =>
      rw [List.cons_append, blanking_string,
        if_neg (Rules.ne_of_continuesWord (h b List.mem_cons_self) (by decide)),
        ih (fun c hc => h c (List.mem_cons_of_mem b hc))]
      rfl

theorem opensWithStop_blanking (mode : Mode) {rest : Bytes} (h : opensWithStop rest = true) :
    opensWithStop (blanking rules mode rest).1 = true := by
  match rest with
  | [] => rw [blanking_nil, h]
  | b :: rest =>
    obtain ⟨x, more, he, hx⟩ := exists_blanking_cons rules mode b rest
    rw [he]
    rcases hx with rfl | rfl
    · exact h
    · rfl

theorem tail_foldCase {d : UInt8} (hd : continuesWord d = false) {bytes : Bytes}
    (h : [d].isPrefixOf bytes = true) : (foldCase bytes).tail = foldCase bytes.tail := by
  obtain ⟨more, rfl⟩ := List.isPrefixOf_iff_prefix.mp h
  show (foldCase (d :: more)).tail = foldCase more
  rw [foldCase_stop hd]
  rfl

/-- **Blanking commutes with folding.** -/
theorem blanking_foldCase (mode : Mode) (bytes : Bytes) :
    blanking rules mode (foldCase bytes)
      = (foldCase (blanking rules mode bytes).1, (blanking rules mode bytes).2) := by
  induction hn : bytes.length using Nat.strongRecOn generalizing mode bytes with
  | _ n ih =>
    subst hn
    have hfiller : continuesWord filler = false := by decide
    cases bytes using run_induction with
    | nil => rw [foldCase_nil, blanking_nil, foldCase_nil]
    | run u rest hne hu hr =>
      have hlt : rest.length < (u ++ rest).length := by
        rw [List.length_append]
        exact Nat.lt_add_of_pos_left (List.length_pos_iff.mpr hne)
      rw [foldCase_run u hr, blanking_run rules mode (continuesWord_of_mem_foldCase hu),
        ih rest.length hlt mode rest rfl, blanking_run rules mode hu,
        foldCase_run _ (opensWithStop_blanking rules mode hr), foldCase_veil]
    | stop b rest hb =>
      have hrest (mode : Mode) := ih rest.length (Nat.lt_succ_self _) mode rest rfl
      have htail (mode : Mode) := ih rest.tail.length
        (by rw [List.length_tail, List.length_cons]; omega) mode rest.tail rfl
      rw [foldCase_stop hb]
      cases mode with
      | code =>
        have hl : rules.lineComment (b :: foldCase rest) = rules.lineComment (b :: rest) := by
          show (rules.comments && (Ascii.slash == b && _)) = _
          rw [isPrefixOf_foldCase (by decide)]
          rfl
        have ho : rules.openComment (b :: foldCase rest) = rules.openComment (b :: rest) := by
          show (rules.comments && (Ascii.slash == b && _)) = _
          rw [isPrefixOf_foldCase (by decide)]
          rfl
        have hs : rules.openString (b :: foldCase rest) = rules.openString (b :: rest) := rfl
        rw [blanking, blanking, hl, ho, hs, length_foldCase]
        split
        · rw [foldCase_replicate_filler]
        · split
          · rename_i hopen
            have hstar : [Ascii.star].isPrefixOf rest = true :=
              (Bool.and_eq_true _ _ |>.mp (Bool.and_eq_true _ _ |>.mp hopen).2).2
            rw [tail_foldCase (by decide) hstar, htail, foldCase_stop hfiller,
              foldCase_stop hfiller]
          · split
            · rw [hrest, foldCase_stop hfiller]
            · rw [hrest, foldCase_stop hb]
      | comment =>
        have hc : [Ascii.star, Ascii.slash].isPrefixOf (b :: foldCase rest)
            = [Ascii.star, Ascii.slash].isPrefixOf (b :: rest) := by
          show (Ascii.star == b && _) = _
          rw [isPrefixOf_foldCase (by decide)]
          rfl
        rw [blanking, blanking, hc]
        split
        · rename_i hclose
          have hslash : [Ascii.slash].isPrefixOf rest = true :=
            (Bool.and_eq_true _ _ |>.mp hclose).2
          rw [tail_foldCase (by decide) hslash, htail, foldCase_stop hfiller,
            foldCase_stop hfiller]
        · rw [hrest, foldCase_stop hfiller]
      | string => rw [blanking_string, blanking_string, hrest, foldCase_stop hfiller]

/-! ## The lexemes of a folded line -/

/-- A lexeme with its letters made small. -/
def Lexeme.small : Lexeme → Lexeme
  | word w => word (foldCase w)
  | mark b => mark b

/-- **The lexemes of a folded line are its lexemes, folded.** -/
theorem lexemes_foldCase (bytes : Bytes) :
    lexemes (foldCase bytes) = (lexemes bytes).map Lexeme.small := by
  induction bytes using lexeme_induction with
  | nil => rw [foldCase_nil, lexemes_nil, List.map_nil]
  | blankByte b rest hb ih =>
    rw [foldCase_stop (not_continuesWord_of_isBlankByte hb), lexemes_of_isBlankByte hb,
      lexemes_of_isBlankByte hb, ih]
  | wideBlank c rest hc ih =>
    rw [foldCase_encodeChar_append, lexemes_of_isWideBlank (by rw [isWideBlank_smallForm, hc]),
      lexemes_of_isWideBlank hc, ih]
  | word w rest hne hw hr ih =>
    rw [foldCase_append_of_opensAfresh w (opensAfresh_of_not_goesOn hr),
      lexemes_of_isWord (foldCase_ne_nil hne) (isWord_foldCase_iff.mpr hw)
        (by rw [wordGoesOn_foldCase, hr]),
      lexemes_of_isWord hne hw hr, ih]
    rfl
  | mark b rest hb hc ih =>
    rw [foldCase_stop hc, lexemes_of_mark hb hc, lexemes_of_mark hb hc, ih]
    rfl

/-! ## The lexemes of folded lines -/

theorem blankLines_foldCase (mode : Mode) (lines : List Bytes) :
    blankLines rules mode (lines.map foldCase) = (blankLines rules mode lines).map foldCase := by
  induction lines generalizing mode with
  | nil => rfl
  | cons line rest ih =>
    rw [List.map_cons, blankLines, blankLines, cut_foldCase, blanking_foldCase, ih, List.map_cons]

theorem numbered_foldCase (n : Nat) (lines : List Bytes) :
    numbered n (lines.map foldCase)
      = (numbered n lines).map fun x => (x.1, x.2.small) := by
  induction lines generalizing n with
  | nil => rfl
  | cons line rest ih =>
    rw [List.map_cons, numbered, numbered, lexemes_foldCase, ih, List.map_append, List.map_map,
      List.map_map]
    rfl

end DeclTags
