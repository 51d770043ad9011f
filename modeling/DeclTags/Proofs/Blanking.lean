import DeclTags.Scan.Step
import DeclTags.Proofs.Lexeme

/-!
# Blanking comments and strings

Comments and string literals mean nothing to a scan. **Blanking** them is one
pass over a source that puts a space for each of their bytes, delimiters
included, and keeps every other byte where it is. The mode it is in – code,
comment or string – is carried from line to line, and a line ends at its
first NUL byte.

Blanking looks at single bytes of ASCII and at nothing else: not at words,
not at characters, not at what has been declared so far. Its lemmas say what
that does to the lexemes of a line. Delimiters are not bytes of words, so a
word is kept as it is, and what follows it still does not carry it on
(`not_goesOn_blanking`). Blanks are in no delimiter, so one more of them in a
source changes nothing but itself (`exists_blanking_append_blank`).
-/

namespace DeclTags

open Utf8

/-- What stands for a byte of a comment or a string. -/
abbrev filler : UInt8 := 0x20

namespace Rules

/-- Does a comment to the end of the line start here? -/
def lineComment (rules : Rules) (bytes : Bytes) : Bool :=
  rules.comments && [Ascii.slash, Ascii.slash].isPrefixOf bytes

/-- Does a comment that has to be closed start here? -/
def openComment (rules : Rules) (bytes : Bytes) : Bool :=
  rules.comments && [Ascii.slash, Ascii.star].isPrefixOf bytes

/-- Does a string start here? -/
def openString (rules : Rules) (bytes : Bytes) : Bool :=
  rules.strings && bytes.head? == some Ascii.quote

/-- **Does something start here that is skipped?** -/
def skipsAt (rules : Rules) (bytes : Bytes) : Bool :=
  rules.lineComment bytes || rules.openComment bytes || rules.openString bytes

end Rules

/-- **Blanking from a mode on**: the bytes with comments and strings blanked,
and the mode at their end. -/
def blanking (rules : Rules) : Mode → Bytes → Bytes × Mode
  | mode, [] => ([], mode)
  | .code, b :: rest =>
    if rules.lineComment (b :: rest) then (List.replicate (rest.length + 1) filler, .code)
    else if rules.openComment (b :: rest) then
      let later := blanking rules .comment rest.tail
      (filler :: filler :: later.1, later.2)
    else if rules.openString (b :: rest) then
      let later := blanking rules .string rest
      (filler :: later.1, later.2)
    else
      let later := blanking rules .code rest
      (b :: later.1, later.2)
  | .comment, b :: rest =>
    if [Ascii.star, Ascii.slash].isPrefixOf (b :: rest) then
      let later := blanking rules .code rest.tail
      (filler :: filler :: later.1, later.2)
    else
      let later := blanking rules .comment rest
      (filler :: later.1, later.2)
  | .string, b :: rest =>
    let later := blanking rules (if b = Ascii.quote then .code else .string) rest
    (filler :: later.1, later.2)
termination_by _ bytes => bytes.length
decreasing_by all_goals simp only [List.length_tail, List.length_cons]; omega

/-- The bytes of a line before its first NUL byte. -/
def cut (line : Bytes) : Bytes := line.takeWhile (· ≠ 0)

/-- Blanking lines from a mode on. -/
def blankLines (rules : Rules) : Mode → List Bytes → List Bytes
  | _, [] => []
  | mode, line :: rest =>
    let here := blanking rules mode (cut line)
    here.1 :: blankLines rules here.2 rest

/-- **A source with its comments and strings blanked.** -/
def blanked (rules : Rules) (lines : List Bytes) : List Bytes := blankLines rules .code lines

namespace Rules

/-- The same rules for code without comments and strings. -/
def codeOnly (rules : Rules) : Rules := { rules with comments := false, strings := false }

variable {rules : Rules}

theorem skipsAt_eq_false_iff {bytes : Bytes} : rules.skipsAt bytes = false ↔
    rules.lineComment bytes = false ∧ rules.openComment bytes = false ∧
      rules.openString bytes = false := by
  rw [skipsAt, Bool.or_eq_false_iff, Bool.or_eq_false_iff, and_assoc]

/-- Nothing is skipped where neither a slash nor a quote stands. -/
theorem skipsAt_of_ne {b : UInt8} (hs : b ≠ Ascii.slash) (hq : b ≠ Ascii.quote) (rest : Bytes) :
    rules.skipsAt (b :: rest) = false := by
  have hs' : ¬ (Ascii.slash = b) := fun h => hs h.symm
  simp [skipsAt, lineComment, openComment, openString, List.isPrefixOf, hs', hq]

theorem ne_of_continuesWord {b c : UInt8} (hb : continuesWord b = true)
    (hc : continuesWord c = false) : b ≠ c := by
  rintro rfl
  rw [hb] at hc
  exact Bool.noConfusion hc

/-- Nothing is skipped inside a word. -/
theorem skipsAt_of_continuesWord {b : UInt8} (h : continuesWord b = true) (rest : Bytes) :
    rules.skipsAt (b :: rest) = false :=
  skipsAt_of_ne (ne_of_continuesWord h (by decide)) (ne_of_continuesWord h (by decide)) rest

@[simp] theorem skipsAt_codeOnly (bytes : Bytes) : rules.codeOnly.skipsAt bytes = false := rfl

theorem skipsAt_of_isBlankByte {b : UInt8} (h : isBlankByte b = true) (rest : Bytes) :
    rules.skipsAt (b :: rest) = false := by
  refine skipsAt_of_ne ?_ ?_ rest
  all_goals
    rintro rfl
    exact absurd h Bool.false_ne_true

end Rules

/-! ## Blanking by the byte -/

section Equations

variable (rules : Rules)

@[simp] theorem blanking_nil (mode : Mode) : blanking rules mode [] = ([], mode) := by
  cases mode <;> rw [blanking]

theorem blanking_code_of_not_skipsAt {b : UInt8} {rest : Bytes}
    (h : rules.skipsAt (b :: rest) = false) :
    blanking rules .code (b :: rest)
      = (b :: (blanking rules .code rest).1, (blanking rules .code rest).2) := by
  obtain ⟨hl, hc, hs⟩ := Rules.skipsAt_eq_false_iff.mp h
  rw [blanking, hl, hc, hs]
  rfl

theorem blanking_lineComment {b : UInt8} {rest : Bytes}
    (h : rules.lineComment (b :: rest) = true) :
    blanking rules .code (b :: rest) = (List.replicate (rest.length + 1) filler, .code) := by
  rw [blanking, if_pos h]

theorem blanking_openComment {b : UInt8} {rest : Bytes}
    (hl : rules.lineComment (b :: rest) = false) (h : rules.openComment (b :: rest) = true) :
    blanking rules .code (b :: rest)
      = (filler :: filler :: (blanking rules .comment rest.tail).1,
        (blanking rules .comment rest.tail).2) := by
  rw [blanking, hl, if_neg Bool.false_ne_true, if_pos h]

theorem blanking_openString {b : UInt8} {rest : Bytes}
    (hl : rules.lineComment (b :: rest) = false) (hc : rules.openComment (b :: rest) = false)
    (h : rules.openString (b :: rest) = true) :
    blanking rules .code (b :: rest)
      = (filler :: (blanking rules .string rest).1, (blanking rules .string rest).2) := by
  rw [blanking, hl, hc, if_neg Bool.false_ne_true, if_neg Bool.false_ne_true, if_pos h]

theorem blanking_closeComment (rest : Bytes) :
    blanking rules .comment (Ascii.star :: Ascii.slash :: rest)
      = (filler :: filler :: (blanking rules .code rest).1, (blanking rules .code rest).2) := by
  rw [blanking]
  rfl

theorem blanking_comment_of_not_close {b : UInt8} {rest : Bytes}
    (h : [Ascii.star, Ascii.slash].isPrefixOf (b :: rest) = false) :
    blanking rules .comment (b :: rest)
      = (filler :: (blanking rules .comment rest).1, (blanking rules .comment rest).2) := by
  rw [blanking, h]
  rfl

theorem blanking_string (b : UInt8) (rest : Bytes) :
    blanking rules .string (b :: rest)
      = (filler :: (blanking rules (if b = Ascii.quote then .code else .string) rest).1,
        (blanking rules (if b = Ascii.quote then .code else .string) rest).2) := by
  rw [blanking]

/-- A byte is kept or blanked. -/
theorem exists_blanking_cons (mode : Mode) (b : UInt8) (rest : Bytes) :
    ∃ x more, (blanking rules mode (b :: rest)).1 = x :: more ∧ (x = b ∨ x = filler) := by
  cases mode with
  | code =>
    rw [blanking]
    split
    · exact ⟨filler, _, rfl, .inr rfl⟩
    · split
      · exact ⟨filler, _, rfl, .inr rfl⟩
      · split
        · exact ⟨filler, _, rfl, .inr rfl⟩
        · exact ⟨b, _, rfl, .inl rfl⟩
  | comment =>
    rw [blanking]
    split
    · exact ⟨filler, _, rfl, .inr rfl⟩
    · exact ⟨filler, _, rfl, .inr rfl⟩
  | string =>
    rw [blanking_string]
    exact ⟨filler, _, rfl, .inr rfl⟩

/-- Bytes that are neither slashes nor quotes are kept. -/
theorem blanking_code_append {bytes : Bytes}
    (h : ∀ b ∈ bytes, b ≠ Ascii.slash ∧ b ≠ Ascii.quote) (rest : Bytes) :
    blanking rules .code (bytes ++ rest)
      = (bytes ++ (blanking rules .code rest).1, (blanking rules .code rest).2) := by
  induction bytes with
  | nil => rfl
  | cons b bytes ih =>
    obtain ⟨hs, hq⟩ := h b List.mem_cons_self
    rw [List.cons_append, blanking_code_of_not_skipsAt rules (Rules.skipsAt_of_ne hs hq _),
      ih (fun c hc => h c (List.mem_cons_of_mem b hc))]
    rfl

end Equations

/-! ## Blanking and lexemes -/

variable {rules : Rules}

theorem lexemes_filler (rest : Bytes) : lexemes (filler :: rest) = lexemes rest :=
  lexemes_of_isBlankByte (by decide) rest

theorem lexemes_replicate_filler (n : Nat) : lexemes (List.replicate n filler) = [] := by
  induction n with
  | zero => exact lexemes_nil
  | succ n ih => rw [List.replicate_succ, lexemes_filler, ih]

theorem ne_delimiters_of_continuesWord {w : Bytes} (h : ∀ b ∈ w, continuesWord b = true) :
    ∀ b ∈ w, b ≠ Ascii.slash ∧ b ≠ Ascii.quote := fun b hb =>
  ⟨Rules.ne_of_continuesWord (h b hb) (by decide), Rules.ne_of_continuesWord (h b hb) (by decide)⟩

theorem continuesWord_of_mem_encodeChar {c : Char} (h : isWideBlank c = true) :
    ∀ b ∈ String.utf8EncodeChar c, continuesWord b = true := by
  obtain ⟨b, tail, hc, hb, -, ht⟩ := encodeChar_of_isWideBlank h
  rw [hc]
  intro x hx
  rcases List.mem_cons.mp hx with rfl | hx
  · exact continuesWord_of_le hb
  · exact continuesWord_of_le (le_of_isContinuation (ht x hx))

/-- A blank outside ASCII is kept. -/
theorem blanking_code_of_isWideBlank {c : Char} (h : isWideBlank c = true) (rest : Bytes) :
    blanking rules .code (String.utf8EncodeChar c ++ rest)
      = (String.utf8EncodeChar c ++ (blanking rules .code rest).1,
        (blanking rules .code rest).2) :=
  blanking_code_append rules
    (ne_delimiters_of_continuesWord (continuesWord_of_mem_encodeChar h)) rest

/-- A word is kept. -/
theorem blanking_code_of_isWord {w : Bytes} (h : IsWord w) (rest : Bytes) :
    blanking rules .code (w ++ rest)
      = (w ++ (blanking rules .code rest).1, (blanking rules .code rest).2) :=
  blanking_code_append rules (ne_delimiters_of_continuesWord h.continuesWord_of_mem) rest

/-- **Blanking carries no word on**: where no word goes on in a line, none
goes on in the blanked line. -/
theorem not_goesOn_blanking {bytes : Bytes} (h : wordGoesOn bytes = false) :
    wordGoesOn (blanking rules .code bytes).1 = false := by
  cases bytes using lexeme_induction with
  | nil => rw [blanking_nil, h]
  | blankByte b rest hb =>
    rw [blanking_code_of_not_skipsAt rules (Rules.skipsAt_of_isBlankByte hb rest)]
    exact wordGoesOn_of_not_continuesWord (not_continuesWord_of_isBlankByte hb) _
  | wideBlank c rest hc =>
    rw [blanking_code_of_isWideBlank hc]
    exact wordGoesOn_of_isWideBlank hc _
  | word w rest hne hw hr =>
    have hg : wordAt (w ++ rest) = [] := wordAt_of_not_goesOn h
    rw [wordAt_append_of_not_goesOn hw hr] at hg
    exact absurd hg hne
  | mark b rest hb hc =>
    obtain ⟨x, more, he, hx⟩ := exists_blanking_cons rules .code b rest
    rw [he]
    refine wordGoesOn_of_not_continuesWord ?_ more
    rcases hx with rfl | rfl
    · exact hc
    · decide

/-! ## Blanking behind a blank -/

namespace Rules

/-- A blank completes no delimiter. -/
theorem isPrefixOf_append_blank {c d e : UInt8} (he : isBlankByte e = true)
    (hd : isBlankByte d = false) (b : UInt8) (x y : Bytes) :
    [c, d].isPrefixOf (b :: (x ++ e :: y)) = [c, d].isPrefixOf (b :: x) := by
  have hne : d ≠ e := fun h => by
    rw [h, he] at hd
    exact Bool.noConfusion hd
  cases x with
  | nil => simp [List.isPrefixOf, hne]
  | cons b' x => rfl

variable {e : UInt8}

theorem lineComment_append_blank (he : isBlankByte e = true) (b : UInt8) (x y : Bytes) :
    rules.lineComment (b :: (x ++ e :: y)) = rules.lineComment (b :: x) := by
  rw [lineComment, isPrefixOf_append_blank he (by decide), lineComment]

theorem openComment_append_blank (he : isBlankByte e = true) (b : UInt8) (x y : Bytes) :
    rules.openComment (b :: (x ++ e :: y)) = rules.openComment (b :: x) := by
  rw [openComment, isPrefixOf_append_blank he (by decide), openComment]

theorem skipsAt_append_blank (he : isBlankByte e = true) (b : UInt8) (x y : Bytes) :
    rules.skipsAt (b :: (x ++ e :: y)) = rules.skipsAt (b :: x) := by
  rw [skipsAt, lineComment_append_blank he, openComment_append_blank he, skipsAt]
  rfl

end Rules

/-- A blank is kept or blanked, and leaves the mode as it is. -/
theorem exists_blanking_blank {e : UInt8} (he : isBlankByte e = true) (mode : Mode) (y : Bytes) :
    ∃ c, (c = e ∨ c = filler) ∧
      blanking rules mode (e :: y)
        = (c :: (blanking rules mode y).1, (blanking rules mode y).2) := by
  cases mode with
  | code =>
    exact ⟨e, .inl rfl, blanking_code_of_not_skipsAt rules (Rules.skipsAt_of_isBlankByte he y)⟩
  | comment =>
    refine ⟨filler, .inr rfl, blanking_comment_of_not_close rules ?_⟩
    have hne : ¬ (Ascii.star = e) := by
      rintro rfl
      exact absurd he Bool.false_ne_true
    simp [List.isPrefixOf, hne]
  | string =>
    refine ⟨filler, .inr rfl, ?_⟩
    have hne : ¬ (e = Ascii.quote) := by
      rintro rfl
      exact absurd he Bool.false_ne_true
    rw [blanking_string, if_neg hne]

/-- **Blanking goes on behind a blank** as it goes on behind a line, unless a
comment runs to the end of the line; such a comment takes in a blank at the
end of the line as well. -/
theorem exists_blanking_append_blank {e : UInt8} (he : isBlankByte e = true) (mode : Mode)
    {x y : Bytes} (h : y = [] ∨ ∀ z, z <:+ x → rules.lineComment z = false) :
    ∃ c, (c = e ∨ c = filler) ∧
      blanking rules mode (x ++ e :: y)
        = ((blanking rules mode x).1 ++ c :: (blanking rules (blanking rules mode x).2 y).1,
          (blanking rules (blanking rules mode x).2 y).2) := by
  have shorten {z w : Bytes} (hz : z <:+ w)
      (h : y = [] ∨ ∀ z, z <:+ w → rules.lineComment z = false) :
      y = [] ∨ ∀ u, u <:+ z → rules.lineComment u = false :=
    h.imp_right (fun h u hu => h u (hu.trans hz))
  fun_induction blanking rules mode x with
  | case1 mode => exact exists_blanking_blank he mode y
  | case2 b rest hl =>
    rcases h with rfl | h
    · refine ⟨filler, .inr rfl, ?_⟩
      have hlong := blanking_lineComment rules
        ((Rules.lineComment_append_blank he b rest []).trans hl)
      refine hlong.trans ?_
      rw [blanking_nil, List.length_append, List.replicate_succ']
      rfl
    · exact absurd hl (by rw [h _ (List.suffix_refl _)]; exact Bool.false_ne_true)
  | case3 b rest hl ho later ih =>
    -- the comment opens with the star behind the slash
    obtain ⟨more, heq⟩ := List.isPrefixOf_iff_prefix.mp (Bool.and_eq_true _ _ |>.mp ho).2
    obtain ⟨rfl, rfl⟩ := List.cons.inj heq
    obtain ⟨c, hc, hlater⟩ := ih (shorten ⟨[Ascii.slash, Ascii.star], rfl⟩ h)
    refine ⟨c, hc, ?_⟩
    have hopen := blanking_openComment rules
      ((Rules.lineComment_append_blank he Ascii.slash (Ascii.star :: more) y).trans
        (Bool.eq_false_iff.mpr hl))
      ((Rules.openComment_append_blank he Ascii.slash (Ascii.star :: more) y).trans ho)
    exact hopen.trans (congrArg (fun e : Bytes × Mode => (filler :: filler :: e.1, e.2)) hlater)
  | case4 b rest hl hc hs later ih =>
    obtain ⟨c, hblank, hlater⟩ := ih (shorten (List.suffix_cons b rest) h)
    refine ⟨c, hblank, ?_⟩
    have hopen := blanking_openString rules
      ((Rules.lineComment_append_blank he b rest y).trans (Bool.eq_false_iff.mpr hl))
      ((Rules.openComment_append_blank he b rest y).trans (Bool.eq_false_iff.mpr hc)) hs
    exact hopen.trans (congrArg (fun e : Bytes × Mode => (filler :: e.1, e.2)) hlater)
  | case5 b rest hl hc hs later ih =>
    obtain ⟨c, hblank, hlater⟩ := ih (shorten (List.suffix_cons b rest) h)
    refine ⟨c, hblank, ?_⟩
    have hskip : rules.skipsAt (b :: rest) = false := Rules.skipsAt_eq_false_iff.mpr
      ⟨Bool.eq_false_iff.mpr hl, Bool.eq_false_iff.mpr hc, Bool.eq_false_iff.mpr hs⟩
    have hkept := blanking_code_of_not_skipsAt rules
      ((Rules.skipsAt_append_blank he b rest y).trans hskip)
    exact hkept.trans (congrArg (fun e : Bytes × Mode => (b :: e.1, e.2)) hlater)
  | case6 b rest hc later ih =>
    obtain ⟨more, heq⟩ := List.isPrefixOf_iff_prefix.mp hc
    obtain ⟨rfl, rfl⟩ := List.cons.inj heq
    obtain ⟨c, hblank, hlater⟩ := ih (shorten ⟨[Ascii.star, Ascii.slash], rfl⟩ h)
    refine ⟨c, hblank, ?_⟩
    exact (blanking_closeComment rules (more ++ e :: y)).trans
      (congrArg (fun e : Bytes × Mode => (filler :: filler :: e.1, e.2)) hlater)
  | case7 b rest hc later ih =>
    obtain ⟨c, hblank, hlater⟩ := ih (shorten (List.suffix_cons b rest) h)
    refine ⟨c, hblank, ?_⟩
    have hkept := blanking_comment_of_not_close rules
      ((Rules.isPrefixOf_append_blank he (by decide) b rest y).trans (Bool.eq_false_iff.mpr hc))
    exact hkept.trans (congrArg (fun e : Bytes × Mode => (filler :: e.1, e.2)) hlater)
  | case8 b rest later ih =>
    obtain ⟨c, hblank, hlater⟩ := ih (shorten (List.suffix_cons b rest) h)
    refine ⟨c, hblank, ?_⟩
    exact (blanking_string rules b (rest ++ e :: y)).trans
      (congrArg (fun e : Bytes × Mode => (filler :: e.1, e.2)) hlater)

/-! ## Blanking where there is nothing to blank -/

theorem blanking_of_not_skipsAt (bytes : Bytes)
    (h : ∀ x y, bytes = x ++ y → rules.skipsAt y = false) :
    blanking rules .code bytes = (bytes, .code) := by
  induction bytes with
  | nil => exact blanking_nil rules .code
  | cons b rest ih =>
    rw [blanking_code_of_not_skipsAt rules (h [] (b :: rest) rfl),
      ih (fun x y he => h (b :: x) y (by rw [he]; rfl))]

/-- Without comments and strings, blanking only cuts the lines. -/
theorem blanked_codeOnly (rules : Rules) (lines : List Bytes) :
    blanked rules.codeOnly lines = lines.map cut := by
  unfold blanked
  induction lines with
  | nil => rfl
  | cons line rest ih =>
    rw [blankLines, blanking_of_not_skipsAt (cut line) (fun _ _ _ => Rules.skipsAt_codeOnly _)]
    exact congrArg (cut line :: ·) ih

/-! ## Blanked lines hold no NUL byte -/

/-- Blanking puts in nothing but spaces. -/
theorem mem_blanking {mode : Mode} {bytes : Bytes} {x : UInt8}
    (h : x ∈ (blanking rules mode bytes).1) : x ∈ bytes ∨ x = filler := by
  fun_induction blanking rules mode bytes with
  | case1 mode => exact .inl h
  | case2 b rest hl => exact .inr (List.eq_of_mem_replicate h)
  | case3 b rest hl ho later ih | case6 b rest hc later ih =>
    -- two bytes are blanked, and the others come from behind them
    rcases List.mem_cons.mp h with h | h
    · exact .inr h
    · rcases List.mem_cons.mp h with h | h
      · exact .inr h
      · exact (ih h).imp_left (fun hx => List.mem_cons_of_mem b (List.mem_of_mem_tail hx))
  | case4 b rest hl ho hs later ih | case7 b rest hc later ih | case8 b rest later ih =>
    rcases List.mem_cons.mp h with h | h
    · exact .inr h
    · exact (ih h).imp_left (List.mem_cons_of_mem b)
  | case5 b rest hl ho hs later ih =>
    rcases List.mem_cons.mp h with rfl | h
    · exact .inl List.mem_cons_self
    · exact (ih h).imp_left (List.mem_cons_of_mem b)

theorem zero_not_mem_cut (line : Bytes) : 0 ∉ cut line := fun h =>
  absurd (List.all_eq_true.mp List.all_takeWhile 0 h) Bool.false_ne_true

theorem cut_of_not_mem {line : Bytes} (h : 0 ∉ line) : cut line = line := by
  have hall : ∀ b ∈ line, decide (b ≠ 0) = true := fun b hb =>
    decide_eq_true (fun he => h (he ▸ hb))
  have hcut : cut (line ++ []) = line ++ cut [] := List.takeWhile_append_of_pos hall
  rwa [show cut [] = [] from rfl, List.append_nil] at hcut

/-- A line that has been blanked is not cut again. -/
theorem cut_blanking (mode : Mode) (line : Bytes) :
    cut (blanking rules mode (cut line)).1 = (blanking rules mode (cut line)).1 := by
  refine cut_of_not_mem (fun h => ?_)
  rcases mem_blanking h with h | h
  · exact zero_not_mem_cut line h
  · exact absurd h (by decide)

theorem map_cut_blankLines (mode : Mode) (lines : List Bytes) :
    (blankLines rules mode lines).map cut = blankLines rules mode lines := by
  induction lines generalizing mode with
  | nil => rfl
  | cons line rest ih =>
    rw [blankLines, List.map_cons, cut_blanking, ih]

end DeclTags
