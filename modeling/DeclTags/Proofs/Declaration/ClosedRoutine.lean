import DeclTags.Proofs.Declaration.Tags
import DeclTags.Proofs.LineNumber

/-!
# A closed routine leaves no trace

Between the header of a routine and the keyword that ends it a source may
hold anything: lists of variables that are never finished, further headers,
half characters. As long as the body does not end there, all of it is read in
the body, so the only tags it can yield are variables of the routine. And
once the body has ended, the scan is back where every scan starts. The lines
behind it are tagged as if they were a source of their own
(`tags_closed_routine`).

What must not happen is said about the lines themselves: at no place where a
word may start does the keyword stand that ends a body, and no comment or
string is left open. A comment to the end of a line may well hide part of it;
it hides words, and makes none.
-/

namespace DeclTags

open Utf8

/-! ## Words and their places -/

namespace Place

variable {p : Place}

theorem self_mem_onward (p : Place) : p ∈ p.onward := by
  rw [onward]
  split
  · exact List.mem_singleton_self p
  · exact List.mem_cons_self

/-- The places after a later place are places after this one. -/
theorem onward_forward_subset (n : Nat) (p : Place) : (p.forward n).onward ⊆ p.onward := by
  induction n generalizing p with
  | zero =>
    rw [forward_zero]
    exact List.Subset.refl _
  | succ n ih =>
    by_cases h : p.after = []
    · rw [forward_of_after_eq_nil h]
      exact List.Subset.refl _
    · have hnext : p.onward = p :: (p.forward 1).onward := by rw [onward, dif_neg h]
      rw [Nat.add_comm, ← forward_forward, hnext]
      exact List.subset_cons_of_subset p (ih (p.forward 1))

/-- **Every word of a line stands at a place where a word may start.** -/
theorem exists_of_word_mem {w : Bytes} (hp : p.Between) (h : .word w ∈ lexemes p.after) :
    ∃ q ∈ p.onward, q.atWordStart = true ∧ q.word = w := by
  generalize ha : p.after = bytes at h
  have onward {p : Place} {n : Nat}
      (hq : ∃ q ∈ (p.forward n).onward, q.atWordStart = true ∧ q.word = w) :
      ∃ q ∈ p.onward, q.atWordStart = true ∧ q.word = w := by
    obtain ⟨q, hq, hw⟩ := hq
    exact ⟨q, onward_forward_subset n p hq, hw⟩
  induction bytes using lexeme_induction generalizing p with
  | nil =>
    rw [lexemes_nil] at h
    exact absurd h List.not_mem_nil
  | blankByte b rest hb ih =>
    rw [lexemes_of_isBlankByte hb] at h
    refine onward (ih (between_forward ha (not_continuesWord_of_isBlankByte hb)) ?_ h)
    rw [after_forward, ha]
    rfl
  | wideBlank c rest hc ih =>
    rw [lexemes_of_isWideBlank hc] at h
    refine onward (ih (.inl (atWordStart_forward_of_isWideBlank ha hc)) ?_ h)
    rw [after_forward, ha, List.drop_left]
  | word u rest hne hu hr ih =>
    have hafter : (p.forward u.length).after = rest := by rw [after_forward, ha, List.drop_left]
    rw [lexemes_of_isWord hne hu hr] at h
    rcases List.mem_cons.mp h with h | h
    · have hword : p.word = u := by
        rw [Place.word, ha]
        exact wordAt_append_of_not_goesOn hu hr
      have hg : wordGoesOn p.after = true := by
        rw [← wordAt_ne_nil_iff]
        exact fun hnil => hne (hword.symm.trans hnil)
      exact ⟨p, self_mem_onward p, hp.atWordStart hg, hword.trans (Lexeme.word.inj h).symm⟩
    · exact onward (ih (.inr (by rw [hafter]; exact hr)) hafter h)
  | mark b rest hb hc ih =>
    rw [lexemes_of_mark hb hc] at h
    rcases List.mem_cons.mp h with h | h
    · exact Lexeme.noConfusion h
    · refine onward (ih (between_forward ha hc) ?_ h)
      rw [after_forward, ha]
      rfl

end Place

/-! ## Lines on which nothing is left open -/

section Blanking

variable {rules : Rules}

/-- **A line on which nothing is left open** keeps its lexemes when it is
blanked, up to a comment that runs to its end. -/
theorem lexemes_blanking_isPrefix {bytes : Bytes}
    (h : ∀ y, y <:+ bytes → rules.openComment y = false ∧ rules.openString y = false) :
    (blanking rules .code bytes).2 = .code ∧
      lexemes (blanking rules .code bytes).1 <+: lexemes bytes := by
  have behind (x : Bytes) {rest : Bytes}
      (h : ∀ y, y <:+ x ++ rest → rules.openComment y = false ∧ rules.openString y = false) :
      ∀ y, y <:+ rest → rules.openComment y = false ∧ rules.openString y = false :=
    fun y hy => h y (hy.trans (List.suffix_append x rest))
  induction bytes using lexeme_induction with
  | nil =>
    rw [blanking_nil]
    exact ⟨rfl, List.prefix_rfl⟩
  | blankByte b rest hb ih =>
    rw [blanking_code_of_not_skipsAt rules (Rules.skipsAt_of_isBlankByte hb rest),
      lexemes_of_isBlankByte hb, lexemes_of_isBlankByte hb]
    exact ih (behind [b] h)
  | wideBlank c rest hc ih =>
    rw [blanking_code_of_isWideBlank hc, lexemes_of_isWideBlank hc, lexemes_of_isWideBlank hc]
    exact ih (behind _ h)
  | word w rest hne hw hr ih =>
    rw [blanking_code_of_isWord hw, lexemes_of_isWord hne hw (not_goesOn_blanking hr),
      lexemes_of_isWord hne hw hr]
    exact (ih (behind _ h)).imp_right (List.prefix_cons_inj _).mpr
  | mark b rest hb hc ih =>
    obtain ⟨hcomment, hstring⟩ := h _ List.suffix_rfl
    cases hl : rules.lineComment (b :: rest) with
    | true =>
      rw [blanking_lineComment rules hl, lexemes_replicate_filler]
      exact ⟨rfl, List.nil_prefix⟩
    | false =>
      have hskip := Rules.skipsAt_eq_false_iff.mpr ⟨hl, hcomment, hstring⟩
      rw [blanking_code_of_not_skipsAt rules hskip, lexemes_of_mark hb hc, lexemes_of_mark hb hc]
      exact (ih (behind [b] h)).imp_right (List.prefix_cons_inj _).mpr

/-- Without a quote and without an opened comment, nothing is left open. -/
theorem Rules.opens_nothing {l : Bytes} (hquote : rules.strings = true → Ascii.quote ∉ l)
    (hcomment : rules.comments = true → ¬ [Ascii.slash, Ascii.star] <:+: l) :
    ∀ y, y <:+ cut l → rules.openComment y = false ∧ rules.openString y = false := by
  intro y hy
  have hcut : cut l <+: l := List.takeWhile_prefix _
  constructor
  · rw [openComment, Bool.and_eq_false_iff]
    cases hc : rules.comments with
    | false => exact .inl rfl
    | true => exact .inr (isPrefixOf_eq_false (fun h => hcomment hc (h.trans hcut.isInfix)) hy)
  · rw [openString, Bool.and_eq_false_iff]
    cases hs : rules.strings with
    | false => exact .inl rfl
    | true =>
      refine .inr (Bool.eq_false_iff.mpr (fun hhead => hquote hs ?_))
      exact hcut.subset (hy.subset (List.mem_of_head? (eq_of_beq hhead)))

/-- Lines on which nothing is left open are blanked each for itself. -/
theorem blankLines_append {xs : List Bytes}
    (h : ∀ l ∈ xs, (blanking rules .code (cut l)).2 = .code) (ys : List Bytes) :
    blankLines rules .code (xs ++ ys)
      = xs.map (fun l => (blanking rules .code (cut l)).1) ++ blankLines rules .code ys := by
  induction xs with
  | nil => rfl
  | cons l xs ih =>
    rw [List.cons_append, blankLines, h l List.mem_cons_self,
      ih (fun l' hl' => h l' (List.mem_cons_of_mem l hl'))]
    rfl

/-- A line without slashes, quotes and NUL bytes is not changed. -/
theorem blanking_cut_eq_self {l : Bytes}
    (h : ∀ b ∈ l, b ≠ Ascii.slash ∧ b ≠ Ascii.quote ∧ b ≠ 0) :
    blanking rules .code (cut l) = (l, .code) := by
  have hkept := blanking_code_append rules
    (fun b hb => ⟨(h b hb).1, (h b hb).2.1⟩ : ∀ b ∈ l, _) []
  rw [cut_of_not_mem (fun h0 => (h 0 h0).2.2 rfl), ← List.append_nil l, hkept, blanking_nil]

end Blanking

/-! ## Reading inside a body -/

namespace Outline

variable {o : Outline} {f : String}

/-- **The reading is in the body of a function**: between statements or in a
list of variables. -/
structure Inside (o : Outline) (f : String) : Prop where
  /-- It is the body of that function. -/
  enclosing : o.enclosing? = some f
  /-- No header is being read. -/
  phase : o.phase = .body ∨ o.phase = .beforeVariable ∨ o.phase = .behindVariable

theorem inside_home (f : String) : (home (some f)).Inside f := ⟨rfl, .inl rfl⟩

/-- **A lexeme keeps the reading inside**, unless it ends the body, and
declares nothing but variables of the function. -/
theorem Inside.next (cyrillic : Bool) (n : Nat) (h : o.Inside f) {x : Lexeme}
    (hx : ∀ w, x = .word w → ¬ Keyword.endSub.Spells w) :
    (o.next cyrillic n x).1.Inside f ∧
      ∀ t ∈ (o.next cyrillic n x).2, t.kind = .var ∧ t.scope? = some f ∧ t.line = n := by
  obtain ⟨phase, enclosing?⟩ := o
  obtain ⟨rfl, hphase⟩ := h
  have none {P : Tag → Prop} : ∀ t ∈ (none : Option Tag), P t := fun t ht => absurd ht (by simp)
  cases x with
  | mark b =>
    refine ⟨?_, none⟩
    show (Outline.afterMark ⟨phase, some f⟩ b).Inside f
    unfold afterMark
    split
    · exact inside_home f
    · split
      · exact ⟨rfl, .inr (.inl rfl)⟩
      · exact ⟨rfl, hphase⟩
  | word w =>
    show (Outline.afterWord cyrillic n ⟨phase, some f⟩ w).1.Inside f ∧ _
    unfold Outline.next afterWord
    rcases hphase with hp | hp | hp
    all_goals
      dsimp only at hp
      subst hp
      dsimp only
    · rw [if_neg (hx w rfl)]
      split
      · exact ⟨⟨rfl, .inr (.inl rfl)⟩, none⟩
      · exact ⟨⟨rfl, .inl rfl⟩, none⟩
    · cases nameIn? cyrillic w with
      | none => exact ⟨⟨rfl, .inr (.inl rfl)⟩, none⟩
      | some name =>
        refine ⟨⟨rfl, .inr (.inr rfl)⟩, fun t ht => ?_⟩
        rw [← Option.some.inj ht]
        exact ⟨rfl, rfl, rfl⟩
    · exact ⟨⟨rfl, .inr (.inr rfl)⟩, none⟩

/-- **What is read inside a body** are variables of the function, on the
lines of their lexemes. -/
theorem Inside.read (cyrillic : Bool) (h : o.Inside f) {xs : List (Nat × Lexeme)}
    (hx : ∀ n w, (n, .word w) ∈ xs → ¬ Keyword.endSub.Spells w) :
    (Outline.read cyrillic o xs).1.Inside f ∧ ∀ t ∈ (Outline.read cyrillic o xs).2,
      t.kind = .var ∧ t.scope? = some f ∧ ∃ x, (t.line, x) ∈ xs := by
  induction xs generalizing o with
  | nil => exact ⟨h, fun t ht => absurd ht List.not_mem_nil⟩
  | cons x xs ih =>
    obtain ⟨n, x⟩ := x
    have hnext := h.next cyrillic n (fun w hw => hx n w (hw ▸ List.mem_cons_self))
    have hlater := ih hnext.1 (fun n w hw => hx n w (List.mem_cons_of_mem _ hw))
    rw [read_cons]
    refine ⟨hlater.1, fun t ht => ?_⟩
    rcases List.mem_append.mp ht with ht | ht
    · obtain ⟨hkind, hscope, hline⟩ := hnext.2 t (Option.mem_toList.mp ht)
      exact ⟨hkind, hscope, x, by rw [hline]; exact List.mem_cons_self⟩
    · obtain ⟨hkind, hscope, y, hy⟩ := hlater.2 t ht
      exact ⟨hkind, hscope, y, List.mem_cons_of_mem _ hy⟩

end Outline

/-! ## The lines of a routine -/

section Lines

variable {cyrillic : Bool}

/-- The header of a routine on a line, without parameters. -/
def headerLine (sub : Spelling .sub) (name : Identifier cyrillic) : Bytes :=
  sub.bytes ++ 0x20 :: (name.bytes ++ [Ascii.openParen, Ascii.closeParen])

/-- The end of a routine on a line, behind a semicolon. -/
def endLine (endSub : Spelling .endSub) : Bytes := Ascii.semicolon :: 0x20 :: endSub.bytes

theorem lexemes_headerLine (sub : Spelling .sub) (name : Identifier cyrillic) :
    lexemes (headerLine sub name) = [.word sub.bytes, .word name.bytes, .mark Ascii.openParen,
      .mark Ascii.closeParen] := by
  rw [headerLine, lexemes_of_isWord sub.spells.ne_nil sub.spells.isWord
      (wordGoesOn_of_not_continuesWord (by decide) _), lexemes_of_isBlankByte (by decide),
    lexemes_of_isWord name.ne_nil name.isWord (wordGoesOn_of_not_continuesWord (by decide) _),
    lexemes_of_mark (by decide) (by decide), lexemes_of_mark (by decide) (by decide), lexemes_nil]

theorem lexemes_endLine (endSub : Spelling .endSub) :
    lexemes (endLine endSub) = [.mark Ascii.semicolon, .word endSub.bytes] := by
  have hword : lexemes (endSub.bytes ++ []) = .word endSub.bytes :: lexemes [] :=
    lexemes_of_isWord endSub.spells.ne_nil endSub.spells.isWord rfl
  rw [List.append_nil, lexemes_nil] at hword
  rw [endLine, lexemes_of_mark (by decide) (by decide), lexemes_of_isBlankByte (by decide), hword]

/-- The bytes of a word are neither slashes nor quotes nor NUL bytes. -/
theorem plain_of_isWord {w : Bytes} (h : IsWord w) :
    ∀ b ∈ w, b ≠ Ascii.slash ∧ b ≠ Ascii.quote ∧ b ≠ 0 := fun b hb =>
  Text.plain_ofBytes h.continuesWord_of_mem b (List.mem_map_of_mem hb)

theorem blanking_headerLine (rules : Rules) (sub : Spelling .sub) (name : Identifier cyrillic) :
    blanking rules .code (cut (headerLine sub name)) = (headerLine sub name, .code) := by
  refine blanking_cut_eq_self (fun b hb => ?_)
  rcases List.mem_append.mp hb with hb | hb
  · exact plain_of_isWord sub.spells.isWord b hb
  · rcases List.mem_cons.mp hb with rfl | hb
    · decide
    · rcases List.mem_append.mp hb with hb | hb
      · exact plain_of_isWord name.isWord b hb
      · have hparens : ∀ b ∈ [Ascii.openParen, Ascii.closeParen],
            b ≠ Ascii.slash ∧ b ≠ Ascii.quote ∧ b ≠ 0 := by decide +kernel
        exact hparens b hb

theorem blanking_endLine (rules : Rules) (endSub : Spelling .endSub) :
    blanking rules .code (cut (endLine endSub)) = (endLine endSub, .code) := by
  refine blanking_cut_eq_self (fun b hb => ?_)
  rcases List.mem_cons.mp hb with rfl | hb
  · decide
  · rcases List.mem_cons.mp hb with rfl | hb
    · decide
    · exact plain_of_isWord endSub.spells.isWord b hb

/-- The header of a routine declares it, and opens its body. -/
theorem read_headerLine (n : Nat) (sub : Spelling .sub) (name : Identifier cyrillic) :
    Outline.read cyrillic {} ((lexemes (headerLine sub name)).map (n, ·))
      = (Outline.home (some name.name), [⟨name.name, .function, n, none⟩]) := by
  have hawaited : Keyword.sub ∈ State.awaited (Outline.home none).phase := by decide
  have hsub : Outline.afterWord cyrillic n {} sub.bytes = (⟨.beforeFunction, none⟩, none) :=
    Outline.afterWord_home hawaited sub.spells
  have hname := Outline.afterWord_beforeFunction (n := n) none name
  have hmark {b : UInt8} (hb : b ≠ Ascii.semicolon) :
      (Outline.home (some name.name)).afterMark b = Outline.home (some name.name) :=
    Outline.afterMark_of_ne hb (fun h => Phase.noConfusion h.2)
  rw [lexemes_headerLine]
  simp only [List.map_cons, List.map_nil, Outline.read, Outline.next, hsub, hname,
    hmark (b := Ascii.openParen) (by decide), hmark (b := Ascii.closeParen) (by decide)]
  rfl

/-- The end of a routine declares nothing, and leaves the body from wherever
the reading is in it. -/
theorem read_endLine {o : Outline} {f : String} (h : o.Inside f) (n : Nat)
    (endSub : Spelling .endSub) :
    Outline.read cyrillic o ((lexemes (endLine endSub)).map (n, ·)) = ({}, []) := by
  obtain ⟨phase, enclosing?⟩ := o
  obtain rfl : enclosing? = some f := h.enclosing
  have hend : (Outline.home (some f)).afterWord cyrillic n endSub.bytes = ({}, none) :=
    Outline.afterWord_home (List.mem_cons_of_mem _ List.mem_cons_self) endSub.spells
  rw [lexemes_endLine]
  simp only [List.map_cons, List.map_nil, Outline.read, Outline.next,
    Outline.afterMark_semicolon_home, hend]
  rfl

end Lines

/-! ## Closed routines -/

/-- No word of a blanked line spells the end of a body, if that does not stand
at any place of the line where a word may start. -/
theorem not_spells_endSub {rules : Rules} {l w : Bytes}
    (hend : ∀ p ∈ (Place.start l).onward, p.atWordStart = true → Keyword.endSub.find? p = none)
    (hopen : ∀ y, y <:+ cut l → rules.openComment y = false ∧ rules.openString y = false)
    (hw : .word w ∈ lexemes (blanking rules .code (cut l)).1) : ¬ Keyword.endSub.Spells w := by
  intro hspells
  have hmem : .word w ∈ lexemes (Place.start l).after :=
    (lexemes_blanking_isPrefix hopen).2.subset hw
  obtain ⟨p, hp, hstart, rfl⟩ := Place.exists_of_word_mem (.inl rfl) hmem
  have hnone := hend p hp hstart
  rw [Keyword.find?_eq, if_pos hspells] at hnone
  exact Option.some_ne_none _ hnone

section Closed

variable {rules : Rules} {cyrillic : Bool} (sub : Spelling .sub) (name : Identifier cyrillic)
  (endSub : Spelling .endSub) (body rest : List Bytes)

/-- The lines of a closed routine are blanked one by one. -/
theorem blanked_closed_routine
    (hopen : ∀ l ∈ body, ∀ y, y <:+ cut l →
      rules.openComment y = false ∧ rules.openString y = false) :
    blanked rules ([headerLine sub name] ++ body ++ [endLine endSub] ++ rest)
      = headerLine sub name :: (body.map (fun l => (blanking rules .code (cut l)).1)
        ++ endLine endSub :: blanked rules rest) := by
  have hcode : ∀ l ∈ body, (blanking rules .code (cut l)).2 = .code :=
    fun l hl => (lexemes_blanking_isPrefix (hopen l hl)).1
  rw [List.append_assoc, List.append_assoc, List.singleton_append, blanked, blankLines,
    blanking_headerLine, blankLines_append hcode, List.singleton_append, blankLines,
    blanking_endLine]
  rfl

/-- **The lexemes of a closed routine** declare it and its variables, and
those behind it are read from the start. -/
theorem outlineTags_closed_routine
    (hend : ∀ l ∈ body, ∀ w, .word w ∈ lexemes l → ¬ Keyword.endSub.Spells w) :
    ∃ vars : List Tag,
      outlineTags cyrillic (headerLine sub name :: (body ++ endLine endSub :: rest))
        = [⟨name.name, .function, 1, none⟩] ++ vars
          ++ (outlineTags cyrillic rest).map (Tag.down (body.length + 2)) ∧
      ∀ t ∈ vars, t.kind = .var ∧ t.scope? = some name.name ∧
        2 ≤ t.line ∧ t.line ≤ body.length + 1 := by
  have hwords : ∀ n w, (n, .word w) ∈ numbered 2 body → ¬ Keyword.endSub.Spells w := by
    intro n w hw
    obtain ⟨-, l, hl, hw⟩ := of_mem_numbered hw
    exact hend l hl w hw
  obtain ⟨hinside, hvars⟩ := (Outline.inside_home name.name).read cyrillic hwords
  have hnumber : 1 + 1 + body.length + 1 = 1 + (body.length + 2) := by omega
  have hrest : (Outline.read cyrillic {} (numbered (1 + 1 + body.length + 1) rest)).2
      = (outlineTags cyrillic rest).map (Tag.down (body.length + 2)) := by
    rw [hnumber]
    exact read_numbered_add cyrillic {} (body.length + 2) 1 rest
  refine ⟨(Outline.read cyrillic (Outline.home (some name.name)) (numbered 2 body)).2, ?_, ?_⟩
  · rw [outlineTags, numbered, Outline.read_append, read_headerLine, numbered_append,
      Outline.read_append, numbered, Outline.read_append, read_endLine hinside, hrest,
      List.append_assoc]
    rfl
  · intro t ht
    obtain ⟨hkind, hscope, x, hx⟩ := hvars t ht
    obtain ⟨⟨hlow, hhigh⟩, -⟩ := of_mem_numbered hx
    exact ⟨hkind, hscope, hlow, by omega⟩

end Closed

/-- **A routine that is closed leaves no trace.** Whatever stands in its body,
as long as the body does not end and leaves nothing open there, the tags are
the routine, variables of the routine on the lines of its body, and the tags
of the lines behind it. -/
theorem tags_closed_routine (comments strings cyrillic : Bool) (sub : Spelling .sub)
    (name : Identifier cyrillic) (endSub : Spelling .endSub) (body rest : List Bytes)
    (hend : ∀ l ∈ body, ∀ p ∈ (Place.start l).onward,
      p.atWordStart = true → Keyword.endSub.find? p = none)
    (hquote : strings = true → ∀ l ∈ body, Ascii.quote ∉ l)
    (hcomment : comments = true → ∀ l ∈ body, ¬ [Ascii.slash, Ascii.star] <:+: l) :
    ∃ vars : List Tag,
      tags ⟨comments, strings, cyrillic, .all⟩
          ([headerLine sub name] ++ body ++ [endLine endSub] ++ rest)
        = [⟨name.name, .function, 1, none⟩] ++ vars
          ++ (tags ⟨comments, strings, cyrillic, .all⟩ rest).map (Tag.down (body.length + 2)) ∧
      ∀ t ∈ vars, t.kind = .var ∧ t.scope? = some name.name ∧
        2 ≤ t.line ∧ t.line ≤ body.length + 1 := by
  let rules : Rules := ⟨comments, strings, cyrillic, .all⟩
  have hopen : ∀ l ∈ body, ∀ y, y <:+ cut l →
      rules.openComment y = false ∧ rules.openString y = false :=
    fun l hl => Rules.opens_nothing (fun hs => hquote hs l hl) (fun hc => hcomment hc l hl)
  let kept := body.map fun l => (blanking rules .code (cut l)).1
  have hkept : ∀ l ∈ kept, ∀ w, .word w ∈ lexemes l → ¬ Keyword.endSub.Spells w := by
    intro l' hl' w hw
    obtain ⟨l, hl, rfl⟩ := List.mem_map.mp hl'
    exact not_spells_endSub (hend l hl) (hopen l hl) hw
  have hlength : kept.length = body.length := List.length_map _
  obtain ⟨vars, htags, hvars⟩ :=
    outlineTags_closed_routine sub name endSub kept (blanked rules rest) hkept
  rw [hlength] at htags hvars
  refine ⟨vars, ?_, hvars⟩
  have hall : rules.kinds = .all := rfl
  rw [tags_eq_outlineTags_of_all hall, tags_eq_outlineTags_of_all hall,
    blanked_closed_routine sub name endSub body rest hopen]
  exact htags

/-- A body with a list of variables that is never finished and a header that
is none, and a line behind it. -/
theorem tags_closed_routine_unfinished :
    let sub : Spelling .sub := ⟨ofString "Function", Keyword.spells_ofString_iff.mpr (by decide)⟩
    let name : Identifier true := ⟨ofString "F", by decide, by decide⟩
    let endSub : Spelling .endSub :=
      ⟨ofString "EndFunction", Keyword.spells_ofString_iff.mpr (by decide)⟩
    let body := [ofString "Var x,", ofString "Function G // y"]
    (∀ l ∈ body, ∀ p ∈ (Place.start l).onward,
        p.atWordStart = true → Keyword.endSub.find? p = none) ∧
      (∀ l ∈ body, Ascii.quote ∉ l) ∧ (∀ l ∈ body, ¬ [Ascii.slash, Ascii.star] <:+: l) ∧
      ∃ vars : List Tag,
        tags {} ([headerLine sub name] ++ body ++ [endLine endSub] ++ [ofString "Var z;"])
          = [⟨"F", .function, 1, none⟩] ++ vars ++ [⟨"z", .var, 5, none⟩] ∧
        ∀ t ∈ vars, t.kind = .var ∧ t.scope? = some "F" ∧ 2 ≤ t.line ∧ t.line ≤ 3 := by
  intro sub name endSub body
  have hend : ∀ l ∈ body, ∀ p ∈ (Place.start l).onward,
      p.atWordStart = true → Keyword.endSub.find? p = none := by decide +kernel
  have hquote : ∀ l ∈ body, Ascii.quote ∉ l := by decide
  have hcomment : ∀ l ∈ body, ¬ [Ascii.slash, Ascii.star] <:+: l := by decide +kernel
  have hname : name.name = "F" := by decide +kernel
  have hrest : (tags {} [ofString "Var z;"]).map (Tag.down 4) = [⟨"z", .var, 5, none⟩] := by
    decide +kernel
  have h := tags_closed_routine true true true sub name endSub body [ofString "Var z;"] hend
    (fun _ => hquote) (fun _ => hcomment)
  rw [hname] at h
  exact ⟨hend, hquote, hcomment, hrest ▸ h⟩

end DeclTags
