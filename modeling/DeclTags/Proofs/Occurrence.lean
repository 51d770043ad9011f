import DeclTags.Proofs.Folding.Tags
import DeclTags.Proofs.Scan.Run
import DeclTags.Proofs.Utf8.WellFormed
import Mathlib.Data.List.Forall2

/-!
# Where tags stand

A tag carries a name and a line, and neither says which bytes it was read
from. Here every tag is given its **slice**, the stretch of a line that is
its name: a whole word from where the name starts, so that nothing is left of
the word behind it. The slices follow one another as the tags do and no two
of them share a byte. No tag is reported twice, then, and none is made up.

On a line that is well-formed UTF-8 the name of a tag has the very bytes of
its slice. A slice starts at a character and has a fresh start behind it –
the end of the line, a mark or a blank – so it cuts no character in two, and
there is nothing to substitute.

The proof keeps the slices of a run beside what has happened in it. A step
takes at most one name, and takes it between the place it started from and
the place it ends at.
-/

namespace DeclTags

open Utf8

/-- **A stretch of a line**: the number of the line, and the number of bytes
before the stretch and before what follows it. -/
structure Slice where
  /-- The number of the line, from 1. -/
  line : Nat
  /-- Where it starts. -/
  start : Nat
  /-- Where it stops. -/
  stop : Nat
deriving DecidableEq

/-- **Some bytes are the name of a declaration**, when `behind` follows them
on the line. -/
structure IsName (cyrillic : Bool) (name behind : Bytes) : Prop where
  /-- It starts with a letter of ASCII, an underscore, or a Cyrillic letter
  if these are let in. -/
  starts : ∃ c more, name = String.utf8EncodeChar c ++ more ∧
    (c.isAlpha = true ∨ c = '_' ∨ (cyrillic = true ∧ isCyrillicLetter c = true))
  /-- All its bytes are bytes of words. -/
  continues : ∀ b ∈ name, continuesWord b = true
  /-- There is no blank outside ASCII in it. -/
  noBlank : ∀ x c y, name = x ++ (String.utf8EncodeChar c ++ y) → isWideBlank c = false
  /-- It ends with the line, or before a byte that is not one of words, or
  before a blank outside ASCII. -/
  maximal : behind = [] ∨ (∃ b more, behind = b :: more ∧ continuesWord b = false) ∨
    ∃ c more, behind = String.utf8EncodeChar c ++ more ∧ isWideBlank c = true

namespace Slice

/-- The bytes of a slice. A line ends at its first NUL byte. -/
def bytes (lines : List Bytes) (o : Slice) : Bytes :=
  (cut (lineOf lines o.line)).extract o.start o.stop

/-- The bytes behind a slice. -/
def behind (lines : List Bytes) (o : Slice) : Bytes := (cut (lineOf lines o.line)).drop o.stop

/-- **A slice of a source is the name of a tag.** -/
structure Names (cyrillic : Bool) (lines : List Bytes) (o : Slice) (t : Tag) : Prop where
  /-- The first line has the number 1. -/
  line_pos : 1 ≤ o.line
  /-- The line is a line of the source. -/
  line_le : o.line ≤ lines.length
  /-- The tag is on that line. -/
  line_eq : t.line = o.line
  /-- The slice is not empty. -/
  start_lt : o.start < o.stop
  /-- It lies before the end of the line and before its first NUL byte. -/
  stop_le : o.stop ≤ (cut (lineOf lines o.line)).length
  /-- The name of the tag is what the slice reads as. -/
  name_eq : t.name = lossy (o.bytes lines)
  /-- The name is not empty. -/
  name_ne : t.name ≠ ""
  /-- The slice is a word from where a name may start. -/
  isName : IsName cyrillic (o.bytes lines) (o.behind lines)
  /-- On a well-formed line, nothing in the name was substituted. -/
  exact_of_wellFormed : (decode? (lineOf lines o.line)).isSome = true →
    ofString t.name = o.bytes lines

/-- One slice starts before another. -/
def Before (a b : Slice) : Prop := a.line < b.line ∨ (a.line = b.line ∧ a.start < b.start)

/-- Two slices share no byte. -/
def Disjoint (a b : Slice) : Prop := a.line = b.line → a.stop ≤ b.start ∨ b.stop ≤ a.start

/-- A slice has been passed at an offset of a line. -/
def Passed (o : Slice) (line offset : Nat) : Prop :=
  o.line < line ∨ (o.line = line ∧ o.stop ≤ offset)

theorem Passed.mono {o : Slice} {line m n : Nat} (h : o.Passed line m) (hmn : m ≤ n) :
    o.Passed line n :=
  h.imp_right (fun ⟨hl, hs⟩ => ⟨hl, Nat.le_trans hs hmn⟩)

theorem Passed.nextLine {o : Slice} {line offset : Nat} (h : o.Passed line offset) :
    o.Passed (line + 1) 0 := by
  rcases h with h | ⟨h, -⟩
  · exact .inl (Nat.lt_succ_of_lt h)
  · exact .inl (h ▸ Nat.lt_succ_self _)

/-- A slice that has been passed where another starts is before it, and
shares no byte with it. -/
theorem Passed.before {a b : Slice} (h : a.Passed b.line b.start) (ha : a.start < a.stop) :
    a.Before b ∧ a.Disjoint b := by
  rcases h with h | ⟨hl, hs⟩
  · exact ⟨.inl h, fun hl => absurd hl (Nat.ne_of_lt h)⟩
  · exact ⟨.inr ⟨hl, Nat.lt_of_lt_of_le ha hs⟩, fun _ => .inl hs⟩

end Slice

/-! ## The word at a place -/

theorem isAlpha_iff {c : Char} : c.isAlpha = true
    ↔ (0x41 ≤ c.toNat ∧ c.toNat ≤ 0x5A) ∨ (0x61 ≤ c.toNat ∧ c.toNat ≤ 0x7A) := by
  have hc : c.val.toNat = c.toNat := rfl
  have hupper : c.isUpper = decide (c.val ≥ 'A'.val ∧ c.val ≤ 'Z'.val) := rfl
  have hlower : c.isLower = (decide (c.val ≥ 'a'.val) && decide (c.val ≤ 'z'.val)) := rfl
  have halpha : c.isAlpha = (c.isUpper || c.isLower) := rfl
  simp only [halpha, hupper, hlower, Bool.or_eq_true, Bool.and_eq_true, decide_eq_true_eq,
    ge_iff_le, UInt32.le_iff_toNat_le, Char.reduceVal, UInt32.reduceToNat, hc]

/-- **Where a name may start, a character stands that may start it.** -/
theorem exists_of_startsName {cyrillic : Bool} {bytes : Bytes}
    (h : startsName cyrillic bytes = true) :
    ∃ c more, bytes = String.utf8EncodeChar c ++ more ∧
      (c.isAlpha = true ∨ c = '_' ∨ (cyrillic = true ∧ isCyrillicLetter c = true)) := by
  cases bytes using char_induction with
  | nil => exact absurd h Bool.false_ne_true
  | char c more =>
    refine ⟨c, more, rfl, ?_⟩
    rcases startsName_encodeChar_iff.mp h with (hupper | hlower | hbar) | hcyrillic
    · exact .inl (isAlpha_iff.mpr (.inl hupper))
    · exact .inl (isAlpha_iff.mpr (.inr hlower))
    · exact .inr (.inl (Char.toNat_inj.mp hbar))
    · exact .inr (.inr hcyrillic)
  | illFormed b tail more hb =>
    rw [not_startsName_of_illFormed cyrillic hb] at h
    exact Bool.noConfusion h

/-- What does not carry a word on is the end, a byte that is not one of
words, or a blank outside ASCII. -/
theorem cases_of_not_goesOn {bytes : Bytes} (h : wordGoesOn bytes = false) :
    bytes = [] ∨ (∃ b more, bytes = b :: more ∧ continuesWord b = false) ∨
      ∃ c more, bytes = String.utf8EncodeChar c ++ more ∧ isWideBlank c = true := by
  match bytes with
  | [] => exact .inl rfl
  | b :: rest =>
    rw [wordGoesOn_cons, Bool.and_eq_false_iff] at h
    rcases h with h | h
    · exact .inr (.inl ⟨b, rest, rfl, h⟩)
    · obtain ⟨n, hn⟩ := Option.isSome_iff_exists.mp (Option.isNone_eq_false_iff.mp h)
      obtain ⟨c, more, hc, he, -⟩ := wideBlank?_eq_some_iff.mp hn
      exact .inr (.inr ⟨c, more, he, hc⟩)

/-- **A word from where a name may start is a name.** -/
theorem IsWord.isName {cyrillic : Bool} {w behind : Bytes} (hw : IsWord w)
    (hstart : startsName cyrillic w = true) (hb : wordGoesOn behind = false) :
    IsName cyrillic w behind where
  starts := exists_of_startsName hstart
  continues := hw.continuesWord_of_mem
  noBlank := by
    rintro x c y rfl
    cases hc : isWideBlank c with
    | false => rfl
    | true =>
      -- no word goes on at a blank
      have hgo := wordGoesOn_of_isWideBlank hc y
      have hrest := hw.of_append
      obtain ⟨b, tail, he, -⟩ := encodeChar_cons c
      rw [he, List.cons_append] at hgo hrest
      rw [(isWord_cons_iff.mp hrest).1] at hgo
      exact Bool.noConfusion hgo
  maximal := cases_of_not_goesOn hb

/-- The bytes behind the first NUL byte of a line open afresh. -/
theorem exists_eq_cut_append (line : Bytes) :
    ∃ rest, line = cut line ++ rest ∧ opensAfresh rest = true := by
  refine ⟨line.dropWhile (· ≠ 0), List.takeWhile_append_dropWhile.symm, ?_⟩
  cases h : line.dropWhile (· ≠ 0) with
  | nil => rfl
  | cons b rest =>
    have hb := List.head?_dropWhile_not (· ≠ 0) line
    rw [h] at hb
    have hzero : b = 0 := by simpa using hb
    rw [hzero]
    rfl

theorem opensAfresh_append {x y : Bytes} (hx : opensAfresh x = true) (hy : opensAfresh y = true) :
    opensAfresh (x ++ y) = true := by
  cases x with
  | nil => exact hy
  | cons b x => exact hx

namespace Place

variable {p : Place} {cyrillic : Bool}

/-- The slice of the word at a place. -/
def wordSlice (line : Nat) (p : Place) : Slice := ⟨line, p.offset, p.offset + p.word.length⟩

/-- A line around the word at a place. -/
theorem line_eq_append_word (p : Place) :
    ∃ rest, p.line = p.before.reverse ++ (p.word ++ rest) ∧ wordGoesOn rest = false := by
  obtain ⟨rest, he, hr⟩ := exists_eq_wordAt_append p.after
  exact ⟨rest, by rw [line, word, ← he], hr⟩

theorem startsName_word (h : p.atNameStart cyrillic = true) : startsName cyrillic p.word = true := by
  obtain ⟨rest, he, hr⟩ := exists_eq_wordAt_append p.after
  obtain ⟨b, w, hw⟩ := List.exists_cons_of_ne_nil (word_ne_nil_of_atNameStart h)
  have hstart : startsName cyrillic (p.word ++ rest) = true := by
    rw [word, ← he]
    exact h
  rw [hw, List.cons_append, startsName_append cyrillic b w (opensAfresh_of_not_goesOn hr)] at hstart
  rw [hw]
  exact hstart

/-- **The word at a place is the name of a tag**, if a name may start there. -/
theorem names_wordSlice {lines : List Bytes} {n : Nat} {t : Tag}
    (h : p.atNameStart cyrillic = true) (hline : p.line = cut (lineOf lines n)) (hpos : 1 ≤ n)
    (hle : n ≤ lines.length) (htl : t.line = n) (htn : t.name = lossy p.word) :
    (p.wordSlice n).Names cyrillic lines t := by
  obtain ⟨rest, he, hr⟩ := line_eq_append_word p
  have hcut : cut (lineOf lines n) = p.before.reverse ++ (p.word ++ rest) := hline.symm.trans he
  have hlen : p.before.reverse.length = p.offset := by rw [List.length_reverse, p.offset_eq]
  have hne : p.word ≠ [] := word_ne_nil_of_atNameStart h
  have hbytes : (p.wordSlice n).bytes lines = p.word := by
    rw [Slice.bytes, wordSlice, hcut, List.extract_eq_take_drop, List.drop_left' hlen,
      Nat.add_sub_cancel_left, List.take_left]
  have hbehind : (p.wordSlice n).behind lines = rest := by
    rw [Slice.behind, wordSlice, hcut, ← List.append_assoc, List.drop_left']
    rw [List.length_append, hlen]
  have hisName : IsName cyrillic p.word rest :=
    (isWord_wordAt p.after).isName (startsName_word h) hr
  constructor
  case line_pos => exact hpos
  case line_le => exact hle
  case line_eq => exact htl
  case start_lt => exact Nat.lt_add_of_pos_right (List.length_pos_iff.mpr hne)
  case stop_le =>
    show p.offset + p.word.length ≤ (cut (lineOf lines n)).length
    rw [hcut, List.length_append, List.length_append, hlen]
    omega
  case name_eq => rw [htn, hbytes]
  case name_ne =>
    intro hempty
    have hname := lossy_ne_empty hne
    rw [← htn, hempty] at hname
    exact Bool.noConfusion hname
  case isName =>
    rw [hbytes, hbehind]
    exact hisName
  case exact_of_wellFormed =>
    intro hdecode
    rw [htn, hbytes]
    refine WellFormed.ofString_lossy ?_
    -- the word starts at a character, and what follows it opens afresh
    obtain ⟨c, more, hc, -⟩ := hisName.starts
    obtain ⟨tail, hl, ht⟩ := exists_eq_cut_append (lineOf lines n)
    have hwell : WellFormed (p.before.reverse ++ (p.word ++ (rest ++ tail))) := by
      rw [← List.append_assoc p.word, ← List.append_assoc, ← hcut, ← hl]
      exact isSome_decode?_iff.mp hdecode
    refine hwell.of_append ?_ (opensAfresh_append (opensAfresh_of_not_goesOn hr) ht)
    rw [hc, List.append_assoc]
    exact opensAfresh_encodeChar c _

end Place

/-! ## The names of a step -/

namespace State

variable {rules : Rules} {line : Nat} {s : State} {p : Place}

/-- **What a step says about tags**: it finds none, or it takes the word at a
place on its way as the name of one. -/
inductive Names (cyrillic : Bool) (line : Nat) (p : Place) (e : Step) : Prop
  /-- There is no tag. -/
  | none (tags : tagsOf e.events = []) (onward : p.offset ≤ e.place.offset)
  /-- There is one tag, named by the word at a place. -/
  | one (t : Tag) (q : Place) (tags : tagsOf e.events = [t]) (onLine : q.line = p.line)
      (onward : p.offset ≤ q.offset) (starts : q.atNameStart cyrillic = true)
      (name : t.name = lossy q.word) (lineEq : t.line = line) (place : e.place = q.skipWord)

/-- The name of a declaration that a step takes behind the blanks. -/
theorem Names.of_declare {t : Tag} {e : Step} {rest : List Event}
    (starts : p.skipBlanks.atNameStart rules.cyrillic = true)
    (events : e.events = declare rules t ++ rest) (quiet : tagsOf rest = [])
    (name : t.name = lossy p.skipBlanks.word) (lineEq : t.line = line)
    (place : e.place = p.skipBlanks.skipWord) : Names rules.cyrillic line p e := by
  have hname : t.name.isEmpty = false := by
    rw [name]
    exact lossy_ne_empty (Place.word_ne_nil_of_atNameStart starts)
  have htags : tagsOf e.events = [t].filter rules.wants := by
    rw [events, tagsOf_append, quiet, tagsOf_declare hname, List.append_nil]
  have honward : p.offset ≤ p.skipBlanks.offset := Place.offset_le_forward _ p
  by_cases hw : rules.wants t = true
  · rw [List.filter_cons_of_pos hw] at htags
    exact .one t p.skipBlanks htags (Place.line_forward _ p) honward starts name lineEq place
  · rw [List.filter_cons_of_neg hw] at htags
    refine .none htags ?_
    rw [place]
    exact Nat.le_trans honward (Place.offset_le_forward _ _)

theorem Move.names {e : Step} (h : Move rules line s p e) : Names rules.cyrillic line p e := by
  have blanks (n : Nat) : p.offset ≤ (p.skipBlanks.forward n).offset :=
    Nat.le_trans (Place.offset_le_forward _ p) (Place.offset_le_forward n _)
  cases h with
  | pass mode n => exact .none rfl (Place.offset_le_forward n p)
  | semicolon | comma => exact .none (tagsOf_goTo (p := p.skipBlanks.forward 1) _ []) (blanks 1)
  | takeKeyword =>
    refine .none (tagsOf_takeKeyword _ _ _ _ _) ?_
    rw [place_takeKeyword]
    exact blanks _
  | takeFunction _ starts | takeVariable _ starts =>
    exact .of_declare starts rfl (tagsOf_changeTo _ _) rfl rfl rfl

end State

/-! ## The names of a scan -/

/-- **Tags have their slices**, one after another, and all of them have been
passed at an offset of a line. -/
def Placed (cyrillic : Bool) (lines : List Bytes) (line offset : Nat) (found : List Tag) : Prop :=
  ∃ slices : List Slice, List.Forall₂ (Slice.Names cyrillic lines) slices found ∧
    slices.Pairwise (fun a b => a.Before b ∧ a.Disjoint b) ∧
    ∀ o ∈ slices, o.start < o.stop ∧ o.Passed line offset

namespace Placed

variable {cyrillic : Bool} {lines : List Bytes} {line m n : Nat} {found : List Tag}

theorem mono (h : Placed cyrillic lines line m found) (hmn : m ≤ n) :
    Placed cyrillic lines line n found := by
  obtain ⟨slices, hnames, hpairs, hpassed⟩ := h
  exact ⟨slices, hnames, hpairs, fun o ho => (hpassed o ho).imp_right (·.mono hmn)⟩

theorem nextLine (h : Placed cyrillic lines line m found) :
    Placed cyrillic lines (line + 1) 0 found := by
  obtain ⟨slices, hnames, hpairs, hpassed⟩ := h
  exact ⟨slices, hnames, hpairs, fun o ho => (hpassed o ho).imp_right (·.nextLine)⟩

/-- One more slice, where all others have been passed. -/
theorem snoc {o : Slice} {t : Tag} (h : Placed cyrillic lines o.line o.start found)
    (ho : o.Names cyrillic lines t) : Placed cyrillic lines o.line o.stop (found ++ [t]) := by
  obtain ⟨slices, hnames, hpairs, hpassed⟩ := h
  refine ⟨slices ++ [o], List.rel_append hnames (.cons ho .nil), ?_, ?_⟩
  · refine List.pairwise_append.mpr ⟨hpairs, List.pairwise_singleton _ _, fun a ha b hb => ?_⟩
    rw [List.mem_singleton.mp hb]
    exact (hpassed a ha).2.before (hpassed a ha).1
  · intro a ha
    rcases List.mem_append.mp ha with ha | ha
    · exact (hpassed a ha).imp_right (·.mono (Nat.le_of_lt ho.start_lt))
    · rw [List.mem_singleton.mp ha]
      exact ⟨ho.start_lt, .inr ⟨rfl, Nat.le_refl _⟩⟩

end Placed

/-- **The tags of a run have their slices**, up to the place it is at. -/
theorem Run.placed {rules : Rules} {lines : List Bytes} {n : Nat} {s : State} {p : Place}
    {es : List Event} (h : Run rules lines n s p es) :
    Placed rules.cyrillic lines n p.offset (tagsOf es) := by
  induction h with
  | start => exact ⟨[], .nil, .nil, fun _ ho => absurd ho List.not_mem_nil⟩
  | @step n s p es run left ih =>
    rw [tagsOf_append]
    cases (State.move_step s rules n p).names with
    | none tags onward =>
      rw [tags, List.append_nil]
      exact ih.mono onward
    | one t q tags onLine onward starts name lineEq place =>
      have hnames : (q.wordSlice n).Names rules.cyrillic lines t :=
        Place.names_wordSlice starts (onLine.trans run.line_eq) (run.pos_of_after_ne_nil left)
          run.le_length lineEq name
      rw [tags, place, Place.offset_skipWord]
      exact Placed.snoc (o := q.wordSlice n) (ih.mono onward) hnames
  | nextLine _ _ _ ih => exact ih.nextLine

/-- **Every tag is a word of the source.** The tags of a source have slices
that are their names, in the order of the source and without a common
byte. -/
theorem tags_have_slices (rules : Rules) (lines : List Bytes) :
    ∃ slices : List Slice,
      List.Forall₂ (Slice.Names rules.cyrillic lines) slices (tags rules lines) ∧
        slices.Pairwise (fun a b => a.Before b ∧ a.Disjoint b) := by
  obtain ⟨q, hrun⟩ := run_scan rules lines
  obtain ⟨slices, hnames, hpairs, -⟩ := hrun.placed
  refine ⟨slices, ?_, hpairs⟩
  rw [tags_eq_tagsOf_scan]
  exact hnames

end DeclTags
