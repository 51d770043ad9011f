import DeclTags.Proofs.Scan.Reading
import DeclTags.Proofs.Source.Lines
import Mathlib.Data.List.Forall2

/-!
# How lines end does not matter

Editors disagree about the end of a line, about a mark at the start of a
file, and about whether the last line of a file has an end. A source is the
same source whichever way it was saved.

The end of a line is taken off before the line is scanned, but not wholly: a
carriage return stays at the end of a source that has no line feed behind it,
and of two carriage returns before a line feed one stays. What is left over
does no harm, because a blank at the end of a line says nothing in any mode:
the lines with it and without it **read alike**. An empty line at the end
says nothing either.

Hence the tags of a source are those of its content divided at the line
feeds and not looked at any further (`Source.tags_of_whole`), and that
division is easily compared with the division of the same content saved in
another way.
-/

namespace DeclTags

open Utf8

variable {rules : Rules}

/-! ## Lines that read alike -/

/-- **Two lines read alike**: in every mode they have the same lexemes and
hand on the same mode. -/
def ReadAlike (l l' : Bytes) : Prop :=
  ∀ rules mode,
    lexemes (blanking rules mode (cut l)).1 = lexemes (blanking rules mode (cut l')).1 ∧
      (blanking rules mode (cut l)).2 = (blanking rules mode (cut l')).2

theorem ReadAlike.refl (l : Bytes) : ReadAlike l l := fun _ _ => ⟨rfl, rfl⟩

/-- **A blank at the end of a line says nothing.** -/
theorem readAlike_append_blank {e : UInt8} (he : isBlankByte e = true) (l : Bytes) :
    ReadAlike l (l ++ [e]) := by
  have hne : e ≠ 0 := fun h => by
    rw [h] at he
    exact Bool.noConfusion he
  have hkept : [e].takeWhile (· ≠ 0) = [e] := List.takeWhile_cons_of_pos (decide_eq_true hne)
  have hcut : cut (l ++ [e]) = if (cut l).length = l.length then l ++ [e] else cut l := by
    rw [cut, List.takeWhile_append, hkept]
    rfl
  intro rules mode
  by_cases hl : (cut l).length = l.length
  · have heq : cut l = l := (List.takeWhile_prefix _).eq_of_length hl
    obtain ⟨c, hc, hblank⟩ : ∃ c, (c = e ∨ c = filler) ∧ blanking rules mode (l ++ [e]) = _ :=
      exists_blanking_append_blank he mode (.inl rfl)
    have hcblank : isBlankByte c = true := by
      rcases hc with rfl | rfl
      · exact he
      · decide
    rw [hcut, if_pos hl, heq, hblank, blanking_nil]
    dsimp only
    rw [lexemes_append _ (wordGoesOn_of_not_continuesWord
      (not_continuesWord_of_isBlankByte hcblank) []), lexemes_of_isBlankByte hcblank, lexemes_nil,
      List.append_nil]
    exact ⟨rfl, rfl⟩
  · rw [hcut, if_neg hl]
    exact ⟨rfl, rfl⟩

/-- Lines that read alike have the same lexemes in a source. -/
theorem numbered_congr {ls ls' : List Bytes} (h : List.Forall₂ ReadAlike ls ls') (n : Nat)
    (mode : Mode) :
    numbered n (blankLines rules mode ls) = numbered n (blankLines rules mode ls') := by
  induction h generalizing n mode with
  | nil => rfl
  | cons halike _ ih =>
    obtain ⟨hlexemes, hmode⟩ := halike rules mode
    rw [blankLines, blankLines, numbered, numbered, hlexemes, hmode, ih]

theorem tags_congr {ls ls' : List Bytes} (h : List.Forall₂ ReadAlike ls ls') :
    tags rules ls = tags rules ls' := by
  rw [tags_eq_outlineTags, tags_eq_outlineTags, outlineTags, outlineTags, blanked, blanked,
    numbered_congr h]

/-- An empty line at the end has no lexemes. -/
theorem numbered_append_nil (n : Nat) (mode : Mode) (lines : List Bytes) :
    numbered n (blankLines rules mode (lines ++ [[]]))
      = numbered n (blankLines rules mode lines) := by
  induction lines generalizing n mode with
  | nil =>
    rw [List.nil_append, blankLines, blankLines, show cut [] = [] from rfl, blanking_nil]
    show numbered n [[]] = []
    rw [numbered, lexemes_nil]
    rfl
  | cons l lines ih => rw [List.cons_append, blankLines, blankLines, numbered, numbered, ih]

theorem tags_append_nil (lines : List Bytes) : tags rules (lines ++ [[]]) = tags rules lines := by
  rw [tags_eq_outlineTags, tags_eq_outlineTags, outlineTags, outlineTags, blanked, blanked,
    numbered_append_nil]

/-! ## What is left of the end of a line -/

/-- **A line with a carriage return more or less** at its end. -/
def Trails (l l' : Bytes) : Prop := l' = l ∨ l' = l ++ [Ascii.carriageReturn]

theorem trails_withoutReturn (l : Bytes) : Trails (withoutReturn l) l := by
  unfold withoutReturn
  split
  · rename_i h
    obtain ⟨more, rfl⟩ := List.getLast?_eq_some_iff.mp h
    rw [List.dropLast_concat]
    exact .inr rfl
  · exact .inl rfl

/-- A carriage return does not complete a byte order mark. -/
theorem withoutMark_append_return (l : Bytes) :
    withoutMark (l ++ [Ascii.carriageReturn]) = withoutMark l ++ [Ascii.carriageReturn] := by
  by_cases h : byteOrderMark.isPrefixOf l = true
  · obtain ⟨more, rfl⟩ := List.isPrefixOf_iff_prefix.mp h
    rfl
  · have hlong : ¬ byteOrderMark.isPrefixOf (l ++ [Ascii.carriageReturn]) = true := by
      rw [List.isPrefixOf_iff_prefix, List.prefix_concat_iff]
      rintro (heq | hprefix)
      · have hmem : Ascii.carriageReturn ∈ byteOrderMark := by
          rw [heq]
          exact List.mem_append_right l List.mem_cons_self
        exact absurd hmem (by decide)
      · exact h (List.isPrefixOf_iff_prefix.mpr hprefix)
    rw [withoutMark, if_neg hlong, withoutMark, if_neg h]

theorem Trails.readAlike {l l' : Bytes} (h : Trails l l') : ReadAlike l l' := by
  rcases h with rfl | rfl
  · exact .refl l'
  · exact readAlike_append_blank (by decide) l

theorem Trails.withoutMark {l l' : Bytes} (h : Trails l l') :
    Trails (withoutMark l) (DeclTags.withoutMark l') := by
  rcases h with rfl | rfl
  · exact .inl rfl
  · exact .inr (withoutMark_append_return l)

/-- **Carriage returns at the ends of lines say nothing**, and do not hide a
byte order mark. -/
theorem tags_unmarked_congr {ls ls' : List Bytes} (h : List.Forall₂ Trails ls ls') :
    tags rules (unmarked ls) = tags rules (unmarked ls') := by
  refine tags_congr ?_
  cases h with
  | nil => exact .nil
  | cons hhead htail =>
    rw [unmarked_cons, unmarked_cons]
    exact .cons hhead.withoutMark.readAlike (htail.imp fun _ _ h => h.readAlike)

/-! ## A content divided at its line feeds -/

theorem unmarked_append_nil (ls : List Bytes) : unmarked (ls ++ [[]]) = unmarked ls ++ [[]] := by
  cases ls with
  | nil => rfl
  | cons l ls => rw [List.cons_append, unmarked_cons, unmarked_cons, List.cons_append]

/-- The lines of a whole content have the tags of its parts between line
feeds. -/
theorem tags_pieces (content : Bytes) :
    tags rules (unmarked (pieces true content))
      = tags rules (unmarked (content.splitOn Ascii.lineFeed)) := by
  obtain ⟨init, last, hparts⟩ : ∃ init last, content.splitOn Ascii.lineFeed = init ++ [last] :=
    ⟨_, _, (List.dropLast_append_getLast (List.splitOn_ne_nil _ _)).symm⟩
  have hpieces : pieces true content
      = init.map withoutReturn ++ [last].filter fun l => !l.isEmpty := by
    rw [pieces, hparts, List.dropLast_concat, List.getLast?_concat]
    rfl
  have htrails : List.Forall₂ Trails (init.map withoutReturn ++ [last]) (init ++ [last]) := by
    refine List.rel_append (List.forall₂_map_left_iff.mpr ?_) (.cons (.inl rfl) .nil)
    exact List.forall₂_same.mpr (fun l _ => trails_withoutReturn l)
  rw [hpieces, hparts, ← tags_unmarked_congr htrails]
  cases last with
  | nil =>
    rw [unmarked_append_nil, tags_append_nil]
    exact congrArg (fun ls => tags rules (unmarked ls)) (List.append_nil _)
  | cons b l => rfl

/-- **The tags of a source that is read to its end** are those of its content
divided at the line feeds. -/
theorem Source.tags_of_whole {source : Source} (h : source.failure? = none) :
    source.tags rules
      = .ok (DeclTags.tags rules (unmarked (source.content.splitOn Ascii.lineFeed))) := by
  rw [tags_eq, h, lines, h]
  exact congrArg Except.ok (tags_pieces source.content)

/-! ## Other ways to save a content -/

/-- A content with a carriage return before each line feed. -/
def withReturns (content : Bytes) : Bytes :=
  content.flatMap fun b =>
    if b = Ascii.lineFeed then [Ascii.carriageReturn, Ascii.lineFeed] else [b]

/-- The first part of a content stands at its head. -/
theorem exists_splitOn_eq_cons (content : Bytes) :
    ∃ part parts, content.splitOn Ascii.lineFeed = part :: parts ∧ part <+: content := by
  obtain ⟨part, parts, h⟩ :=
    List.exists_cons_of_ne_nil (List.splitOn_ne_nil Ascii.lineFeed content)
  refine ⟨part, parts, h, ?_⟩
  have hjoin : [Ascii.lineFeed].intercalate (content.splitOn Ascii.lineFeed) = content :=
    List.intercalate_splitOn _
  rw [h] at hjoin
  cases parts with
  | nil =>
    rw [List.intercalate_singleton] at hjoin
    exact hjoin ▸ List.prefix_refl _
  | cons part' parts =>
    rw [List.intercalate_cons_cons, List.append_assoc] at hjoin
    exact ⟨_, hjoin⟩

theorem unmarked_splitOn {content : Bytes} (h : ¬ byteOrderMark <+: content) :
    unmarked (content.splitOn Ascii.lineFeed) = content.splitOn Ascii.lineFeed := by
  obtain ⟨part, parts, heq, hpart⟩ := exists_splitOn_eq_cons content
  rw [heq, unmarked_cons, withoutMark, if_neg]
  exact fun hmark => h ((List.isPrefixOf_iff_prefix.mp hmark).trans hpart)

/-- A byte order mark in front of a content is taken off its first part. -/
theorem unmarked_splitOn_mark (content : Bytes) :
    unmarked ((byteOrderMark ++ content).splitOn Ascii.lineFeed)
      = content.splitOn Ascii.lineFeed := by
  obtain ⟨part, parts, heq, -⟩ := exists_splitOn_eq_cons content
  rw [byteOrderMark, List.cons_append, List.cons_append, List.cons_append, List.nil_append,
    List.splitOn_cons_eq_if_modifyHead, if_neg (by decide),
    List.splitOn_cons_eq_if_modifyHead, if_neg (by decide),
    List.splitOn_cons_eq_if_modifyHead, if_neg (by decide), heq]
  rfl

/-- A carriage return before a line feed ends the part before it. -/
theorem trails_splitOn_withReturns (content : Bytes) :
    List.Forall₂ Trails (content.splitOn Ascii.lineFeed)
      ((withReturns content).splitOn Ascii.lineFeed) := by
  induction content with
  | nil => exact .cons (.inl rfl) .nil
  | cons b content ih =>
    by_cases hb : b = Ascii.lineFeed
    · subst hb
      have hreturns : withReturns (Ascii.lineFeed :: content)
          = [Ascii.carriageReturn] ++ Ascii.lineFeed :: withReturns content := rfl
      have hreturn : Ascii.lineFeed ∉ [Ascii.carriageReturn] := by decide
      rw [hreturns, List.splitOn_append_cons_self_of_not_mem hreturn,
        List.splitOn_cons_eq_if_modifyHead, if_pos (beq_self_eq_true _)]
      exact .cons (.inr rfl) ih
    · have hreturns : withReturns (b :: content) = b :: withReturns content := by
        rw [withReturns, List.flatMap_cons, if_neg hb]
        rfl
      have hne : ¬ (b == Ascii.lineFeed) = true := fun h => hb (eq_of_beq h)
      rw [hreturns, List.splitOn_cons_eq_if_modifyHead, if_neg hne,
        List.splitOn_cons_eq_if_modifyHead, if_neg hne]
      generalize content.splitOn Ascii.lineFeed = parts at ih
      generalize (withReturns content).splitOn Ascii.lineFeed = parts' at ih
      cases ih with
      | nil => exact .nil
      | cons hhead htail =>
        refine .cons ?_ htail
        rcases hhead with rfl | rfl
        · exact .inl rfl
        · exact .inr rfl

/-- **The tags of a source do not depend on how it was saved**: with or
without a byte order mark, with line feeds or carriage returns and line
feeds, with or without an end of its last line. They are the tags of its
parts between line feeds. -/
theorem tags_saved_in_any_way (rules : Rules) {text : Bytes} (h : ¬ byteOrderMark <+: text) :
    ∀ saved ∈ [text, byteOrderMark ++ text, withReturns text, text ++ [Ascii.lineFeed]],
      ∀ source : Source, source.content = saved → source.failure? = none →
        source.tags rules = .ok (tags rules (text.splitOn Ascii.lineFeed)) := by
  intro saved hsaved source hcontent hfails
  rw [Source.tags_of_whole hfails, hcontent, ← unmarked_splitOn h]
  refine congrArg Except.ok ?_
  simp only [List.mem_cons, List.not_mem_nil, or_false] at hsaved
  rcases hsaved with rfl | rfl | rfl | rfl
  · rfl
  · rw [unmarked_splitOn_mark, unmarked_splitOn h]
  · exact (tags_unmarked_congr (trails_splitOn_withReturns text)).symm
  · rw [List.splitOn_append_cons_self, List.splitOn_nil, unmarked_append_nil, tags_append_nil]

/-- A text whose last line has no end, and ends in half a character. -/
theorem tags_saved_in_any_way_half_character :
    let text := ofString "Var a;\nVar b" ++ [0xD0]
    ¬ byteOrderMark <+: text ∧
      (∀ saved ∈ [text, byteOrderMark ++ text, withReturns text, text ++ [Ascii.lineFeed]],
        (Source.ofBytes saved).content = saved ∧ (Source.ofBytes saved).failure? = none ∧
          (Source.ofBytes saved).tags {} = .ok (tags {} (text.splitOn Ascii.lineFeed))) ∧
      tags {} (text.splitOn Ascii.lineFeed)
        = [⟨"a", .var, 1, none⟩, ⟨"b\uFFFD", .var, 2, none⟩] := by
  intro text
  have hmark : ¬ byteOrderMark <+: text := by decide
  refine ⟨hmark, fun saved hsaved => ?_, by decide +kernel⟩
  have hcontent : (Source.ofBytes saved).content = saved := List.append_nil saved
  exact ⟨hcontent, rfl, tags_saved_in_any_way {} hmark saved hsaved _ hcontent rfl⟩

end DeclTags
