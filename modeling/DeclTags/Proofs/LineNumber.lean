import DeclTags.Proofs.Scan.Reading
import DeclTags.Proofs.Utf8.Ascii

/-!
# Line numbers

A line number is a label. An outline passes it on to the tags and never looks
at it, so a reading with other numbers finds the same declarations
(`Outline.read_renumber`). In particular the tags of a source that starts
further down are those of the source, moved down as a whole
(`read_numbered_add`).

Nor does the end of a line say more than a blank does. Comments and strings
that are not closed go on over it, and a word ends there. So a source can be
written on one line, with a space for every line break, and declares the same
(`declarations_oneLine`). Two things would stand in the way: a comment that
runs to the end of its line would swallow the lines behind it, and a NUL byte
ends a line for good.
-/

namespace DeclTags

open Utf8

/-! ## Numbers are labels -/

/-- A tag with its line renumbered. -/
def Tag.renumber (f : Nat → Nat) (t : Tag) : Tag := { t with line := f t.line }

/-- A tag on a line further down. -/
def Tag.down (k : Nat) (t : Tag) : Tag := t.renumber (· + k)

/-- **What a tag declares**, wherever it stands: its name, its kind and its
scope. -/
def Tag.declaration (t : Tag) : String × Kind × Option String := (t.name, t.kind, t.scope?)

namespace Outline

variable {cyrillic : Bool} {o : Outline}

/-- The number of the line only shows in the tag. -/
theorem next_renumber (f : Nat → Nat) (n : Nat) (x : Lexeme) :
    o.next cyrillic (f n) x
      = ((o.next cyrillic n x).1, (o.next cyrillic n x).2.map (Tag.renumber f)) := by
  cases x with
  | mark b => rfl
  | word w =>
    show o.afterWord cyrillic (f n) w = _
    obtain ⟨phase, enclosing?⟩ := o
    cases phase with
    | outside | body =>
      show (Outline.afterWord cyrillic (f n) ⟨_, enclosing?⟩ w)
        = ((Outline.afterWord cyrillic n ⟨_, enclosing?⟩ w).1,
          (Outline.afterWord cyrillic n ⟨_, enclosing?⟩ w).2.map (Tag.renumber f))
      rw [afterWord_outside (by simp), afterWord_outside (by simp)]
      rfl
    | beforeFunction | beforeVariable =>
      show Outline.afterWord cyrillic (f n) ⟨_, enclosing?⟩ w
        = ((Outline.afterWord cyrillic n ⟨_, enclosing?⟩ w).1,
          (Outline.afterWord cyrillic n ⟨_, enclosing?⟩ w).2.map (Tag.renumber f))
      unfold afterWord
      dsimp only
      cases nameIn? cyrillic w <;> rfl
    | behindVariable => rfl

/-- **Lexemes on other lines** declare the same, on those lines. -/
theorem read_renumber (f : Nat → Nat) (xs : List (Nat × Lexeme)) :
    read cyrillic o (xs.map fun x => (f x.1, x.2))
      = ((read cyrillic o xs).1, (read cyrillic o xs).2.map (Tag.renumber f)) := by
  induction xs generalizing o with
  | nil => rfl
  | cons x xs ih =>
    obtain ⟨n, x⟩ := x
    rw [List.map_cons, read_cons, read_cons, next_renumber, ih, List.map_append]
    dsimp only
    rw [Option.toList_map]

/-- **The same lexemes on any lines** make the same declarations. -/
theorem declarations_read {xs ys : List (Nat × Lexeme)} (h : xs.map Prod.snd = ys.map Prod.snd) :
    (read cyrillic o xs).2.map Tag.declaration = (read cyrillic o ys).2.map Tag.declaration := by
  have label (xs : List (Nat × Lexeme)) :
      (read cyrillic o xs).2.map Tag.declaration
        = (read cyrillic o ((xs.map Prod.snd).map (0, ·))).2.map Tag.declaration := by
    have hmap : xs.map (fun x => (0, x.2)) = (xs.map Prod.snd).map (0, ·) := by
      rw [List.map_map]
      rfl
    rw [← hmap, read_renumber (fun _ => 0) xs, List.map_map]
    rfl
  rw [label xs, label ys, h]

end Outline

/-- Lines further down have their lexemes further down. -/
theorem numbered_add (k n : Nat) (lines : List Bytes) :
    numbered (n + k) lines = (numbered n lines).map fun x => (x.1 + k, x.2) := by
  induction lines generalizing n with
  | nil => rfl
  | cons l lines ih =>
    rw [numbered, numbered, Nat.add_right_comm, ih, List.map_append, List.map_map]
    rfl

/-- **Lines further down** declare the same, further down. -/
theorem read_numbered_add (cyrillic : Bool) (o : Outline) (k n : Nat) (lines : List Bytes) :
    (Outline.read cyrillic o (numbered (n + k) lines)).2
      = (Outline.read cyrillic o (numbered n lines)).2.map (Tag.down k) := by
  rw [numbered_add]
  exact congrArg Prod.snd (Outline.read_renumber (· + k) (numbered n lines))

/-- The lexemes of some lines are those of each of them. -/
theorem map_snd_numbered (n : Nat) (lines : List Bytes) :
    (numbered n lines).map Prod.snd = lines.flatMap lexemes := by
  induction lines generalizing n with
  | nil => rfl
  | cons l lines ih =>
    rw [numbered, List.map_append, List.map_map, ih, List.flatMap_cons]
    exact congrArg (· ++ _) (List.map_id _)

/-! ## Line breaks are blanks -/

/-- **Some lines written on one**, with a space for every line break. -/
def oneLine (lines : List Bytes) : Bytes := [filler].intercalate lines

theorem oneLine_cons_cons (l l' : Bytes) (lines : List Bytes) :
    oneLine (l :: l' :: lines) = l ++ filler :: oneLine (l' :: lines) := by
  rw [oneLine, List.intercalate_cons_cons, List.append_assoc]
  rfl

/-- Bytes of one line are bytes of the lines, and spaces. -/
theorem mem_oneLine {lines : List Bytes} {b : UInt8} (h : b ∈ oneLine lines) :
    b = filler ∨ ∃ l ∈ lines, b ∈ l :=
  (mem_of_mem_intercalate h).imp_left List.mem_singleton.mp

/-- The lexemes of one line are those of the lines. -/
theorem lexemes_oneLine (lines : List Bytes) :
    lexemes (oneLine lines) = lines.flatMap lexemes := by
  induction lines with
  | nil => exact lexemes_nil
  | cons l lines ih =>
    cases lines with
    | nil =>
      rw [oneLine, List.intercalate_singleton]
      exact (List.append_nil _).symm
    | cons l' lines =>
      rw [oneLine_cons_cons, List.flatMap_cons, ← ih, lexemes_append, lexemes_filler]
      exact wordGoesOn_of_not_continuesWord (by decide) _

namespace Rules

variable {rules : Rules}

/-- A delimiter that is not among some bytes does not start at any of them. -/
theorem isPrefixOf_eq_false {d x y : Bytes} (h : ¬ d <:+: x) (hy : y <:+ x) :
    d.isPrefixOf y = false := by
  rw [Bool.eq_false_iff]
  exact fun hd => h ((List.isPrefixOf_iff_prefix.mp hd).isInfix.trans hy.isInfix)

/-- Without two slashes no comment runs to the end of the line. -/
theorem lineComment_eq_false {x : Bytes}
    (h : rules.comments = true → ¬ [Ascii.slash, Ascii.slash] <:+: x) :
    ∀ y, y <:+ x → rules.lineComment y = false := by
  intro y hy
  rw [lineComment, Bool.and_eq_false_iff]
  cases hc : rules.comments with
  | false => exact .inl rfl
  | true => exact .inr (isPrefixOf_eq_false (h hc) hy)

end Rules

variable {rules : Rules}

/-- **Blanking goes on behind a space** as it goes on behind a line, if no
comment runs to the end of the line. -/
theorem blanking_append_filler (mode : Mode) {x : Bytes} (y : Bytes)
    (h : ∀ z, z <:+ x → rules.lineComment z = false) :
    blanking rules mode (x ++ filler :: y)
      = ((blanking rules mode x).1 ++ filler :: (blanking rules (blanking rules mode x).2 y).1,
        (blanking rules (blanking rules mode x).2 y).2) := by
  have hblank : isBlankByte filler = true := by decide
  obtain ⟨c, hc, he⟩ := exists_blanking_append_blank hblank mode (y := y) (.inr h)
  rw [he, or_self_iff.mp hc]

/-- **One line, blanked,** is the blanked lines on one. -/
theorem blanking_oneLine (mode : Mode) {lines : List Bytes} (hnul : ∀ l ∈ lines, 0 ∉ l)
    (h : ∀ l ∈ lines, ∀ z, z <:+ l → rules.lineComment z = false) :
    (blanking rules mode (oneLine lines)).1 = oneLine (blankLines rules mode lines) := by
  induction lines generalizing mode with
  | nil =>
    show (blanking rules mode []).1 = []
    rw [blanking_nil]
  | cons l lines ih =>
    have hcut : cut l = l := cut_of_not_mem (hnul l List.mem_cons_self)
    cases lines with
    | nil =>
      rw [blankLines, hcut, blankLines, oneLine, oneLine, List.intercalate_singleton,
        List.intercalate_singleton]
    | cons l' lines =>
      have hlater := ih (blanking rules mode l).2 (fun l hl => hnul l (List.mem_cons_of_mem _ hl))
        (fun l hl => h l (List.mem_cons_of_mem _ hl))
      have hblank : blankLines rules mode (l :: l' :: lines)
          = (blanking rules mode l).1 ::
            blankLines rules (blanking rules mode l).2 (l' :: lines) := by
        rw [blankLines, hcut]
      rw [oneLine_cons_cons, blanking_append_filler mode _ (h l List.mem_cons_self), hlater, hblank]
      exact (oneLine_cons_cons _ _ _).symm

/-- **Line breaks are blanks.** A source and the same source on one line make
the same declarations in the same order. -/
theorem declarations_oneLine (rules : Rules) (lines : List Bytes) (hnul : ∀ l ∈ lines, 0 ∉ l)
    (hcomment : rules.comments = true → ∀ l ∈ lines, ¬ [Ascii.slash, Ascii.slash] <:+: l) :
    (tags rules lines).map Tag.declaration = (tags rules [oneLine lines]).map Tag.declaration := by
  have hcut : cut (oneLine lines) = oneLine lines := by
    refine cut_of_not_mem (fun h => ?_)
    rcases mem_oneLine h with h | ⟨l, hl, h⟩
    · exact absurd h (by decide)
    · exact hnul l hl h
  have hblanked : blanked rules [oneLine lines] = [oneLine (blanked rules lines)] := by
    rw [blanked, blankLines, blankLines, hcut, blanking_oneLine .code hnul]
    · rfl
    · exact fun l hl => Rules.lineComment_eq_false (fun hc => hcomment hc l hl)
  have hlexemes : (numbered 1 (blanked rules lines)).map Prod.snd
      = (numbered 1 [oneLine (blanked rules lines)]).map Prod.snd := by
    rw [map_snd_numbered, map_snd_numbered, List.flatMap_singleton, lexemes_oneLine]
  -- whether a tag is wanted depends on its declaration
  have hwants (ts : List Tag) : (ts.filter rules.wants).map Tag.declaration
      = (ts.map Tag.declaration).filter fun d => rules.kinds.contains d.2.1 := by
    rw [List.filter_map]
    rfl
  rw [tags_eq_outlineTags, tags_eq_outlineTags, hwants, hwants, hblanked, outlineTags,
    Outline.declarations_read hlexemes]
  rfl

/-- A list of variables over two lines, with a comment that is closed on the
second. -/
theorem declarations_oneLine_open_comment :
    (∀ l ∈ [ofString "Var a, /* b", ofString "*/ c;"], 0 ∉ l) ∧
      (∀ l ∈ [ofString "Var a, /* b", ofString "*/ c;"],
        ¬ [Ascii.slash, Ascii.slash] <:+: l) ∧
      oneLine [ofString "Var a, /* b", ofString "*/ c;"] = ofString "Var a, /* b */ c;" ∧
      (tags {} [ofString "Var a, /* b", ofString "*/ c;"]).map Tag.declaration
        = [("a", .var, none), ("c", .var, none)] ∧
      (tags {} [ofString "Var a, /* b", ofString "*/ c;"]).map Tag.declaration
        = (tags {} [oneLine [ofString "Var a, /* b", ofString "*/ c;"]]).map Tag.declaration := by
  have hnul : ∀ l ∈ [ofString "Var a, /* b", ofString "*/ c;"], 0 ∉ l := by decide
  have hcomment : ∀ l ∈ [ofString "Var a, /* b", ofString "*/ c;"],
      ¬ [Ascii.slash, Ascii.slash] <:+: l := by decide +kernel
  exact ⟨hnul, hcomment, by decide, by decide +kernel,
    declarations_oneLine {} _ hnul (fun _ => hcomment)⟩

end DeclTags
