import DeclTags.Proofs.Scan.Word

/-!
# A scan reads an outline

What a scan finds in a line, and the state it ends in, can be said without a
scan: blank the comments and strings, cut what is left into lexemes, and read
the outline off them (`readLine`). This module proves that the two agree, for
a line (`scanFrom_eq`) and for a source (`tags_eq_outlineTags`).

The induction is on the bytes left of the line, and it goes from lexeme to
lexeme. What carries it is that the place is never inside a word: either a
word may start there or no word goes on (`Place.Between`). At the start of a
line the first holds, behind a blank, a mark or a delimiter the first, behind
a word the second. The condition is needed in code only. A comment or a
string is searched for its last byte, which is a mark, so its end restores
the condition whatever its bytes are.
-/

namespace DeclTags

open Utf8

/-- **The reading of a line**: the outline of its lexemes once comments and
strings are blanked, as a state and the declarations found. -/
def readLine (rules : Rules) (line : Nat) (s : State) (bytes : Bytes) : State × List Tag :=
  let b := blanking rules s.mode bytes
  let o := Outline.read rules.cyrillic s.outline ((lexemes b.1).map (line, ·))
  (o.1.state b.2, o.2)

/-- No word reaches over this place. -/
def Place.Between (p : Place) : Prop := p.atWordStart = true ∨ wordGoesOn p.after = false

/-- **The scan from a place on agrees with the reading of the bytes left.** -/
structure Agrees (rules : Rules) (line : Nat) (s : State) (p : Place) : Prop where
  /-- Both end in one state. -/
  state_eq : (scanFrom rules line s p).1 = (readLine rules line s p.after).1
  /-- The scan finds the wanted declarations of the reading. -/
  tags_eq : tagsOf (scanFrom rules line s p).2
    = (readLine rules line s p.after).2.filter rules.wants

variable {rules : Rules} {line : Nat} {s t : State} {p q : Place}

/-! ## The reading, lexeme by lexeme -/

@[simp] theorem readLine_nil : readLine rules line s [] = (s, []) := by
  rw [readLine, blanking_nil, lexemes_nil]
  rfl

/-- The reading does not change with bytes that are blanked or blank. -/
theorem readLine_of_lexemes_eq {x y : Bytes}
    (h : lexemes (blanking rules s.mode x).1 = lexemes (blanking rules t.mode y).1)
    (hm : (blanking rules s.mode x).2 = (blanking rules t.mode y).2)
    (ho : s.outline = t.outline) : readLine rules line s x = readLine rules line t y := by
  rw [readLine, readLine, h, hm, ho]

/-- A first byte that is blanked or blank is not read. -/
theorem readLine_of_isBlankByte (hm : s.mode = .code) {b : UInt8} {rest : Bytes}
    (hb : isBlankByte b = true) :
    readLine rules line s (b :: rest) = readLine rules line s rest := by
  have he := blanking_code_of_not_skipsAt rules (Rules.skipsAt_of_isBlankByte hb rest)
  refine readLine_of_lexemes_eq ?_ ?_ rfl
  · rw [hm, he, lexemes_of_isBlankByte hb]
  · rw [hm, he]

theorem readLine_of_isWideBlank (hm : s.mode = .code) {c : Char} {rest : Bytes}
    (hc : isWideBlank c = true) :
    readLine rules line s (String.utf8EncodeChar c ++ rest) = readLine rules line s rest := by
  have he : blanking rules .code _ = _ := blanking_code_of_isWideBlank hc rest
  refine readLine_of_lexemes_eq ?_ ?_ rfl
  · rw [hm, he, lexemes_of_isWideBlank hc]
  · rw [hm, he]

/-- **A word is read as a whole.** -/
theorem readLine_of_isWord (hm : s.mode = .code) {w rest : Bytes} (hne : w ≠ [])
    (hw : IsWord w) (hr : wordGoesOn rest = false) :
    readLine rules line s (w ++ rest)
      = ((readLine rules line
            ((s.outline.afterWord rules.cyrillic line w).1.state .code) rest).1,
        (s.outline.afterWord rules.cyrillic line w).2.toList
          ++ (readLine rules line
            ((s.outline.afterWord rules.cyrillic line w).1.state .code) rest).2) := by
  have he : blanking rules .code _ = _ := blanking_code_of_isWord hw rest
  rw [readLine, hm, he, lexemes_of_isWord hne hw (not_goesOn_blanking hr)]
  rfl

theorem readLine_of_mark (hm : s.mode = .code) {b : UInt8} {rest : Bytes}
    (hb : isBlankByte b = false) (hc : continuesWord b = false)
    (hs : rules.skipsAt (b :: rest) = false) :
    readLine rules line s (b :: rest)
      = readLine rules line ((s.outline.afterMark b).state .code) rest := by
  rw [readLine, hm, blanking_code_of_not_skipsAt rules hs, lexemes_of_mark hb hc]
  rfl

theorem readLine_of_lineComment (hm : s.mode = .code) {b : UInt8} {rest : Bytes}
    (h : rules.lineComment (b :: rest) = true) :
    readLine rules line s (b :: rest) = (s, []) := by
  have hnil : readLine rules line s [] = (s, []) := readLine_nil
  have he := blanking_lineComment rules h
  rw [← hnil]
  refine readLine_of_lexemes_eq ?_ ?_ rfl
  · rw [hm, he, lexemes_replicate_filler, blanking_nil, lexemes_nil]
  · rw [hm, he, blanking_nil]

theorem readLine_of_openComment (hm : s.mode = .code) {b : UInt8} {rest : Bytes}
    (hl : rules.lineComment (b :: rest) = false) (h : rules.openComment (b :: rest) = true) :
    readLine rules line s (b :: rest)
      = readLine rules line { s with mode := .comment } rest.tail := by
  have he := blanking_openComment rules hl h
  refine readLine_of_lexemes_eq ?_ ?_ rfl
  · rw [hm, he, lexemes_filler, lexemes_filler]
  · rw [hm, he]

theorem readLine_of_openString (hm : s.mode = .code) {b : UInt8} {rest : Bytes}
    (hl : rules.lineComment (b :: rest) = false) (hc : rules.openComment (b :: rest) = false)
    (h : rules.openString (b :: rest) = true) :
    readLine rules line s (b :: rest) = readLine rules line { s with mode := .string } rest := by
  have he := blanking_openString rules hl hc h
  refine readLine_of_lexemes_eq ?_ ?_ rfl
  · rw [hm, he, lexemes_filler]
  · rw [hm, he]

theorem readLine_of_closeComment (hm : s.mode = .comment) (rest : Bytes) :
    readLine rules line s (Ascii.star :: Ascii.slash :: rest)
      = readLine rules line { s with mode := .code } rest := by
  have he := blanking_closeComment rules rest
  refine readLine_of_lexemes_eq ?_ ?_ rfl
  · rw [hm, he, lexemes_filler, lexemes_filler]
  · rw [hm, he]

theorem readLine_of_comment (hm : s.mode = .comment) {b : UInt8} {rest : Bytes}
    (h : [Ascii.star, Ascii.slash].isPrefixOf (b :: rest) = false) :
    readLine rules line s (b :: rest) = readLine rules line s rest := by
  have he := blanking_comment_of_not_close rules h
  refine readLine_of_lexemes_eq ?_ ?_ rfl
  · rw [hm, he, lexemes_filler]
  · rw [hm, he]

theorem readLine_of_string (hm : s.mode = .string) (b : UInt8) (rest : Bytes) :
    readLine rules line s (b :: rest)
      = readLine rules line { s with mode := if b = Ascii.quote then .code else .string } rest := by
  have he := blanking_string rules b rest
  refine readLine_of_lexemes_eq ?_ ?_ rfl
  · rw [hm, he, lexemes_filler]
  · rw [hm, he]

/-! ## Places between words -/

namespace Place

theorem between_forward {b : UInt8} {more : Bytes} (ha : p.after = b :: more)
    (hb : continuesWord b = false) : (p.forward 1).Between :=
  .inl (atWordStart_forward_of_not_continuesWord ha hb)

theorem between_forward_two {b c : UInt8} {more : Bytes} (ha : p.after = b :: c :: more)
    (hc : continuesWord c = false) : (p.forward 2).Between := by
  have hafter : (p.forward 1).after = c :: more := by
    rw [after_forward, ha]
    rfl
  have h := between_forward hafter hc
  rwa [forward_forward] at h

/-- A word that starts between words starts where one may start. -/
theorem Between.atWordStart (h : p.Between) (hg : wordGoesOn p.after = true) :
    p.atWordStart = true := by
  rcases h with h | h
  · exact h
  · rw [hg] at h
    exact Bool.noConfusion h

end Place

/-! ## Marks -/

/-- Between words, a mark other than a semicolon is passed over, and only a
comma behind a variable changes the phase. -/
theorem State.codeStep_of_not_goesOn (h : wordGoesOn p.after = false) (hs : s.mode = .code) :
    s.codeStep rules line p
      = if p.here? = some Ascii.comma ∧ s.phase = .behindVariable
        then s.goTo .beforeVariable (p.forward 1) []
        else ⟨s, p.forward 1, []⟩ := by
  have hword : p.word = [] := wordAt_of_not_goesOn h
  have hname : p.atNameStart rules.cyrillic = false := by
    cases hn : p.atNameStart rules.cyrillic with
    | false => rfl
    | true =>
      rw [wordGoesOn_of_startsName hn] at h
      exact Bool.noConfusion h
  have hkey (keywords : List Keyword) : keywordAt? p keywords = none := by
    cases hp : p.atWordStart with
    | false => exact keywordAt?_of_not_atWordStart hp keywords
    | true =>
      rw [keywordAt?_of_atWordStart hp, hword, List.find?_eq_none.mpr]
      · rfl
      · intro k _ hk
        exact (of_decide_eq_true hk).ne_nil rfl
  obtain ⟨phase, mode, enclosing?⟩ := s
  unfold codeStep
  cases phase with
  | outside | body =>
    dsimp only
    rw [hkey, if_neg (fun hc => absurd hc.2 (by decide))]
  | beforeFunction | beforeVariable =>
    dsimp only
    rw [hname, if_neg (by decide), if_neg (fun hc => absurd hc.2 (by decide))]
  | behindVariable =>
    dsimp only
    simp only [and_true]

/-- A mark that is not skipped changes the phase as the outline says. -/
theorem State.step_of_mark (line : Nat) (hm : s.mode = .code) {b : UInt8} {rest : Bytes}
    (ha : p.after = b :: rest) (hb : isBlankByte b = false) (hc : continuesWord b = false)
    (hs : rules.skipsAt (b :: rest) = false) :
    ∃ events, s.step rules line p = ⟨(s.outline.afterMark b).state .code, p.forward 1, events⟩ ∧
      tagsOf events = [] := by
  have hhere : p.here? = some b := by
    rw [Place.here?, ha]
    rfl
  have hnot : wordGoesOn p.after = false := by
    rw [ha]
    exact wordGoesOn_of_not_continuesWord hc rest
  rw [step_of_not_skipsAt hm (by rw [ha]; exact blank?_of_mark hb hc rest) (by rw [ha]; exact hs)
      (by rw [ha]; exact List.cons_ne_nil b rest), codeStep_of_not_goesOn hnot hm, hhere,
    Outline.afterMark, ← hm]
  simp only [Option.some.injEq]
  by_cases hsemi : b = Ascii.semicolon
  · rw [if_pos hsemi, if_pos hsemi]
    exact ⟨_, rfl, tagsOf_goTo (p := p.forward 1) s.statementPhase []⟩
  · rw [if_neg hsemi, if_neg hsemi]
    by_cases hcomma : b = Ascii.comma ∧ s.phase = .behindVariable
    · rw [if_pos hcomma,
        if_pos (show b = Ascii.comma ∧ s.outline.phase = .behindVariable from hcomma)]
      exact ⟨_, rfl, tagsOf_goTo (p := p.forward 1) .beforeVariable []⟩
    · rw [if_neg hcomma,
        if_neg (show ¬ (b = Ascii.comma ∧ s.outline.phase = .behindVariable) from hcomma)]
      exact ⟨_, rfl, tagsOf_nil⟩

/-! ## One lexeme further -/

/-- **A scan and the reading go on together**, from one place between words
to another one further on. -/
structure Progress (rules : Rules) (line : Nat) (s : State) (p : Place) (found : List Tag)
    (t : State) (q : Place) : Prop where
  /-- Less is left of the line. -/
  shorter : q.after.length < p.after.length
  /-- In code, the scan is between words again. -/
  between : t.mode = .code → q.Between
  /-- The scan goes on from there, having found what is wanted. -/
  leads : Leads rules line s p (found.filter rules.wants) t q
  /-- The reading goes on from there, having found the same. -/
  reading : readLine rules line s p.after
    = ((readLine rules line t q.after).1, found ++ (readLine rules line t q.after).2)

namespace Progress

/-- Progress from what is left before and after it, with nothing found. -/
theorem of_after_eq {x y : Bytes} (hp : p.after = x) (hq : q.after = y)
    (hlt : y.length < x.length) (hb : t.mode = .code → q.Between)
    (hl : Leads rules line s p [] t q) (hr : readLine rules line s x = readLine rules line t y) :
    Progress rules line s p [] t q := by
  subst hp hq
  exact ⟨hlt, hb, hl, hr⟩

theorem comment (hm : s.mode = .comment) (hne : p.after ≠ []) :
    ∃ t q, Progress rules line s p [] t q := by
  have hs (q : Place) : s.step rules line q = s.searchStep Ascii.star [Ascii.slash] q := by
    rw [State.step, hm]
  obtain ⟨b, rest, ha⟩ := List.exists_cons_of_ne_nil hne
  cases hc : [Ascii.star, Ascii.slash].isPrefixOf (b :: rest) with
  | true =>
    obtain ⟨more, he⟩ := List.isPrefixOf_iff_prefix.mp hc
    have ha : p.after = Ascii.star :: Ascii.slash :: more := ha.trans he.symm
    have hafter : (p.forward 2).after = more := by
      rw [Place.after_forward, ha]
      rfl
    refine ⟨{ s with mode := .code }, p.forward 2, of_after_eq ha hafter ?_ ?_ ?_ ?_⟩
    · exact Nat.lt_succ_of_lt (Nat.lt_succ_self _)
    · exact fun _ => Place.between_forward_two ha (by decide)
    · exact Leads.found ha (hs p)
    · exact readLine_of_closeComment hm more
  | false =>
    refine ⟨s, p.forward 1, of_after_eq ha ?_ (Nat.lt_succ_self _) ?_ ?_ ?_⟩
    · rw [Place.after_forward, ha]
      rfl
    · rw [hm]
      exact fun h => absurd h (by decide)
    · exact Leads.search ha hs hc
    · exact readLine_of_comment hm hc

theorem string (hm : s.mode = .string) (hne : p.after ≠ []) :
    ∃ t q, Progress rules line s p [] t q := by
  have hs (q : Place) : s.step rules line q = s.searchStep Ascii.quote [] q := by
    rw [State.step, hm]
  obtain ⟨b, rest, ha⟩ := List.exists_cons_of_ne_nil hne
  have hafter : (p.forward 1).after = rest := by
    rw [Place.after_forward, ha]
    rfl
  have hr : readLine rules line s (b :: rest) = _ := readLine_of_string hm b rest
  by_cases hb : b = Ascii.quote
  · subst hb
    rw [if_pos rfl] at hr
    refine ⟨{ s with mode := .code }, p.forward 1,
      of_after_eq ha hafter (Nat.lt_succ_self _) ?_ ?_ hr⟩
    · exact fun _ => Place.between_forward ha (by decide)
    · exact Leads.found ha (hs p)
  · rw [if_neg hb, ← hm] at hr
    refine ⟨s, p.forward 1, of_after_eq ha hafter (Nat.lt_succ_self _) ?_ ?_ hr⟩
    · rw [hm]
      exact fun h => absurd h (by decide)
    · refine Leads.search ha hs ?_
      simp [List.isPrefixOf, Ne.symm hb]

/-- What is skipped in code: a comment or a string is entered, or the rest of
the line is left behind. -/
theorem skipped (hm : s.mode = .code) {b : UInt8} {rest : Bytes} (ha : p.after = b :: rest)
    (hb : blank? (b :: rest) = none) (hs : rules.skipsAt (b :: rest) = true) :
    ∃ t q, Progress rules line s p [] t q := by
  have hne : p.after ≠ [] := by
    rw [ha]
    exact List.cons_ne_nil b rest
  have hstep : s.step rules line p = _ := State.step_of_code hm (by rw [ha]; exact hb)
  rw [ha] at hstep
  by_cases hl : rules.lineComment (b :: rest) = true
  · rw [if_pos hl] at hstep
    refine ⟨s, p.toEnd, of_after_eq ha (Place.after_toEnd p) (Nat.succ_pos _) ?_ ?_ ?_⟩
    · exact fun _ => .inr (by rw [Place.after_toEnd]; rfl)
    · exact Leads.of_step hne hstep
    · rw [readLine_of_lineComment hm hl, readLine_nil]
  · rw [if_neg hl] at hstep
    have hl := Bool.eq_false_iff.mpr hl
    by_cases hc : rules.openComment (b :: rest) = true
    · rw [if_pos hc] at hstep
      have hafter : (p.forward 2).after = rest.tail := by
        rw [Place.after_forward, ha]
        exact List.drop_one
      refine ⟨{ s with mode := .comment }, p.forward 2, of_after_eq ha hafter ?_ ?_ ?_ ?_⟩
      · rw [List.length_tail]
        exact Nat.lt_succ_of_le (Nat.sub_le _ _)
      · exact fun h => Mode.noConfusion h
      · exact Leads.of_step hne hstep
      · exact readLine_of_openComment hm hl hc
    · rw [if_neg hc] at hstep
      have hc := Bool.eq_false_iff.mpr hc
      have ho : rules.openString (b :: rest) = true := by
        rw [Rules.skipsAt, hl, hc, Bool.false_or, Bool.false_or] at hs
        exact hs
      rw [if_pos ho] at hstep
      refine ⟨{ s with mode := .string }, p.forward 1,
        of_after_eq ha ?_ (Nat.lt_succ_self _) ?_ ?_ ?_⟩
      · rw [Place.after_forward, ha]
        rfl
      · exact fun h => Mode.noConfusion h
      · exact Leads.of_step hne hstep
      · exact readLine_of_openString hm hl hc ho

/-- A mark that is not skipped. -/
theorem mark (hm : s.mode = .code) {b : UInt8} {rest : Bytes} (ha : p.after = b :: rest)
    (hb : isBlankByte b = false) (hc : continuesWord b = false)
    (hs : rules.skipsAt (b :: rest) = false) :
    Progress rules line s p [] ((s.outline.afterMark b).state .code) (p.forward 1) := by
  have hne : p.after ≠ [] := by
    rw [ha]
    exact List.cons_ne_nil b rest
  have hafter : (p.forward 1).after = rest := by
    rw [Place.after_forward, ha]
    rfl
  obtain ⟨events, hstep, hnone⟩ := State.step_of_mark line hm ha hb hc hs
  have hlead := Leads.of_step hne hstep
  rw [hnone] at hlead
  exact of_after_eq ha hafter (Nat.lt_succ_self _) (fun _ => Place.between_forward ha hc) hlead
    (readLine_of_mark hm hb hc hs)

theorem blankByte (hm : s.mode = .code) {b : UInt8} {rest : Bytes} (ha : p.after = b :: rest)
    (hb : isBlankByte b = true) : Progress rules line s p [] s (p.forward 1) := by
  have hafter : (p.forward 1).after = rest := by
    rw [Place.after_forward, ha]
    rfl
  refine of_after_eq ha hafter (Nat.lt_succ_self _) ?_ ?_ ?_
  · exact fun _ => Place.between_forward ha (not_continuesWord_of_isBlankByte hb)
  · exact Leads.blank hm (by rw [ha]; exact blank?_of_isBlankByte hb rest)
  · exact readLine_of_isBlankByte hm hb

theorem wideBlank (hm : s.mode = .code) {c : Char} {rest : Bytes}
    (ha : p.after = String.utf8EncodeChar c ++ rest) (hc : isWideBlank c = true) :
    Progress rules line s p [] s (p.forward (String.utf8EncodeChar c).length) := by
  have hafter : (p.forward (String.utf8EncodeChar c).length).after = rest := by
    rw [Place.after_forward, ha, List.drop_left]
  refine of_after_eq ha hafter ?_ ?_ ?_ ?_
  · obtain ⟨x, tail, hx, -⟩ := encodeChar_cons c
    rw [hx, List.length_append, List.length_cons]
    omega
  · exact fun _ => .inl (Place.atWordStart_forward_of_isWideBlank ha hc)
  · exact Leads.blank hm (by rw [ha]; exact blank?_of_isWideBlank hc rest)
  · exact readLine_of_isWideBlank hm hc

theorem word (hm : s.mode = .code) (hp : p.Between) {w rest : Bytes}
    (ha : p.after = w ++ rest) (hne : w ≠ []) (hw : IsWord w) (hr : wordGoesOn rest = false) :
    Progress rules line s p (s.outline.afterWord rules.cyrillic line w).2.toList
      ((s.outline.afterWord rules.cyrillic line w).1.state .code) (p.forward w.length) := by
  have hafter : (p.forward w.length).after = rest := by
    rw [Place.after_forward, ha, List.drop_left]
  have hg : wordGoesOn p.after = true := by
    rw [← wordAt_ne_nil_iff, ha, wordAt_append_of_not_goesOn hw hr]
    exact hne
  constructor
  · rw [ha, hafter, List.length_append]
    exact Nat.lt_add_of_pos_left (List.length_pos_iff.mpr hne)
  · exact fun _ => .inr (by rw [hafter]; exact hr)
  · exact Leads.word hm (hp.atWordStart hg) ha hne hw hr
  · rw [ha, hafter]
    exact readLine_of_isWord hm hne hw hr

/-- **Wherever a scan is, it goes on with the reading** to the end of the
line. -/
theorem exists_of_ne_nil (hp : s.mode = .code → p.Between) (hne : p.after ≠ []) :
    ∃ found t q, Progress rules line s p found t q := by
  cases hm : s.mode with
  | comment => exact ⟨[], comment hm hne⟩
  | string => exact ⟨[], string hm hne⟩
  | code =>
    generalize ha : p.after = bytes at hne
    cases bytes using lexeme_induction with
    | nil => exact absurd rfl hne
    | blankByte b rest hb => exact ⟨[], s, _, blankByte hm ha hb⟩
    | wideBlank c rest hc => exact ⟨[], s, _, wideBlank hm ha hc⟩
    | word w rest hw₀ hw hr => exact ⟨_, _, _, word hm (hp hm) ha hw₀ hw hr⟩
    | mark b rest hb hc =>
      cases hs : rules.skipsAt (b :: rest) with
      | true => exact ⟨[], skipped hm ha (blank?_of_mark hb hc rest) hs⟩
      | false => exact ⟨[], _, _, mark hm ha hb hc hs⟩

end Progress

/-! ## Lines and sources -/

/-- **The scan of a line from a place between words agrees with the reading
of what is left of it.** -/
theorem scanFrom_agrees (hp : s.mode = .code → p.Between) : Agrees rules line s p := by
  induction hn : p.after.length using Nat.strongRecOn generalizing s p with
  | _ n ih =>
    subst hn
    by_cases hne : p.after = []
    · constructor
      · rw [scanFrom_of_after_eq_nil hne, hne, readLine_nil]
      · rw [scanFrom_of_after_eq_nil hne, hne, readLine_nil]
        rfl
    · obtain ⟨found, t, q, h⟩ : ∃ found t q, Progress rules line s p found t q :=
        Progress.exists_of_ne_nil hp hne
      have hq := ih q.after.length h.shorter h.between rfl
      constructor
      · rw [h.leads.state_eq, hq.state_eq, h.reading]
      · rw [h.leads.tags_eq, hq.tags_eq, h.reading, List.filter_append]

theorem scanLine_eq (rules : Rules) (line : Nat) (s : State) (bytes : Bytes) :
    (scanLine rules line s bytes).1 = (readLine rules line s (cut bytes)).1 ∧
      tagsOf (scanLine rules line s bytes).2
        = (readLine rules line s (cut bytes)).2.filter rules.wants := by
  have h : Agrees rules line s (Place.start bytes) := scanFrom_agrees (fun _ => .inl rfl)
  exact ⟨h.state_eq, h.tags_eq⟩

/-- **The scan of some lines** finds the wanted declarations of the outline of
the blanked lines. -/
theorem tagsOf_scanLines (line : Nat) (s : State) (lines : List Bytes) :
    tagsOf (scanLines rules line s lines).2.flatten
      = (Outline.read rules.cyrillic s.outline
          (numbered line (blankLines rules s.mode lines))).2.filter rules.wants := by
  induction lines generalizing line s with
  | nil => rfl
  | cons l rest ih =>
    obtain ⟨hstate, htags⟩ := scanLine_eq rules line s l
    rw [scanLines, blankLines, numbered, Outline.read_append]
    dsimp only
    rw [List.flatten_cons, tagsOf_append, htags, ih, hstate, List.filter_append]
    rfl

/-- **A scan reads the outline of the blanked source.** -/
theorem tags_eq_outlineTags (rules : Rules) (lines : List Bytes) :
    tags rules lines
      = (outlineTags rules.cyrillic (blanked rules lines)).filter rules.wants := by
  rw [tags_eq_tagsOf_scan]
  exact tagsOf_scanLines 1 {} lines

/-- Where all kinds are wanted, no declaration is left out. -/
theorem tags_eq_outlineTags_of_all {rules : Rules} (h : rules.kinds = .all) (lines : List Bytes) :
    tags rules lines = outlineTags rules.cyrillic (blanked rules lines) := by
  rw [tags_eq_outlineTags]
  refine List.filter_eq_self.mpr (fun t _ => ?_)
  rw [Rules.wants, h, KindSet.contains_all]

/-- **Skipping is blanking.** What a scan finds that skips comments and
strings is what a scan that knows of neither finds in the blanked source. -/
theorem tags_eq_tags_blanked (rules : Rules) (lines : List Bytes) :
    tags rules lines = tags rules.codeOnly (blanked rules lines) := by
  rw [tags_eq_outlineTags, tags_eq_outlineTags, blanked_codeOnly, blanked, map_cut_blankLines]
  rfl

/-- **A scan that skips nothing reads off the lexemes** of the lines, each of
which ends at its first NUL byte. -/
theorem tags_eq_outlineTags_cut (cyrillic : Bool) (lines : List Bytes) :
    tags ⟨false, false, cyrillic, .all⟩ lines = outlineTags cyrillic (lines.map cut) := by
  have hblank : blanked ⟨false, false, cyrillic, .all⟩ lines = lines.map cut :=
    blanked_codeOnly ⟨true, true, cyrillic, .all⟩ lines
  rw [tags_eq_outlineTags, hblank]
  exact List.filter_eq_self.mpr (fun t _ => KindSet.contains_all t.kind)

end DeclTags
