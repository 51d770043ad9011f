import DeclTags.Proofs.Declaration.Syntax
import DeclTags.Proofs.Scan.Reading

/-!
# The tags of a module are its declarations

A module that is written down and scanned yields what it declares, whatever
choices were made in writing it (`tags_moduleText`).

The proof follows the syntax. Between two items, and between two parts of a
body, a scan is **at home**: it knows the function it is in and waits for the
keywords of its phase. Every part takes it from home to home and declares its
own tags on the way, in front of whatever text follows. Inside a part, the
same is said of its pieces: the keyword takes the outline to where a name is
awaited, the name declares, and a semicolon brings it home.
-/

namespace DeclTags

open Utf8 Text

/-! ## Where the parts of a module start -/

/-- The outline between two parts. -/
def Outline.home (scope? : Option String) : Outline :=
  ⟨if scope?.isSome then .body else .outside, scope?⟩

namespace Outline

variable {cyrillic : Bool} {n : Nat}

/-- A semicolon brings every outline home. -/
theorem afterMark_semicolon_home (phase : Phase) (scope? : Option String) :
    Outline.afterMark ⟨phase, scope?⟩ Ascii.semicolon = home scope? :=
  afterMark_semicolon _

theorem home_cases (scope? : Option String) :
    (home scope?).phase = .outside ∨ (home scope?).phase = .body := by
  cases scope? with
  | none => exact .inl rfl
  | some f => exact .inr rfl

/-- An awaited keyword is found. -/
theorem keyword?_of_spells {o : Outline} {k : Keyword} {w : Bytes}
    (hk : k ∈ State.awaited o.phase) (hw : k.Spells w) : o.keyword? w = some k := by
  unfold keyword?
  generalize State.awaited o.phase = ks at hk
  induction ks with
  | nil => exact absurd hk List.not_mem_nil
  | cons j ks ih =>
    rw [List.find?_cons]
    by_cases hj : j.Spells w
    · rw [decide_eq_true hj, hj.unique hw]
    · rw [decide_eq_false hj]
      rcases List.mem_cons.mp hk with rfl | hk
      · exact absurd hw hj
      · exact ih hk

/-- At home, an awaited keyword takes the outline on. -/
theorem afterWord_home {scope? : Option String} {k : Keyword} {w : Bytes}
    (hk : k ∈ State.awaited (home scope?).phase) (hw : k.Spells w) :
    (home scope?).afterWord cyrillic n w = ((home scope?).afterKeyword k, none) := by
  rw [afterWord_outside (home_cases scope?), keyword?_of_spells hk hw]
  rfl

/-- Where a name is awaited, a name is declared. -/
theorem afterWord_beforeVariable (scope? : Option String) (i : Identifier cyrillic) :
    Outline.afterWord cyrillic n ⟨.beforeVariable, scope?⟩ i.bytes
      = (⟨.behindVariable, scope?⟩, some ⟨i.name, .var, n, scope?⟩) := by
  unfold afterWord
  dsimp only
  rw [nameIn?_of_startsName i.starts]
  rfl

theorem afterWord_beforeFunction (scope? : Option String) (i : Identifier cyrillic) :
    Outline.afterWord cyrillic n ⟨.beforeFunction, scope?⟩ i.bytes
      = (home (some i.name), some ⟨i.name, .function, n, none⟩) := by
  unfold afterWord
  dsimp only
  rw [nameIn?_of_startsName i.starts]
  rfl

end Outline

/-! ## Blanks and words -/

section Pieces

variable {cyrillic : Bool} {n : Nat} {o : Outline}

theorem Identifier.ne_nil (i : Identifier cyrillic) : i.bytes ≠ [] := by
  intro h
  exact absurd i.starts (by simp [h, startsName])

theorem declares_blank (b : Blank) (y : Text) :
    declares cyrillic n o (b.text ++ y) = declares cyrillic (n + b.text.breaks) o y := by
  cases b with
  | byte b h => exact declares_blankByte h y
  | verticalTab =>
    show declares cyrillic n o (some 0x0B :: y) = declares cyrillic n o y
    rw [declares_mark (by decide) (by decide),
      Outline.afterMark_of_ne (by decide) (fun h => absurd h.1 (by decide))]
  | wide c h =>
    rw [Blank.text, breaks_ofBytes, declares_wideBlank h]
    rfl
  | lineBreak => exact declares_none_cons y

theorem declares_blanks (s : List Blank) (y : Text) :
    declares cyrillic n o (blanks s ++ y) = declares cyrillic (n + (blanks s).breaks) o y := by
  induction s generalizing n with
  | nil => rfl
  | cons b s ih =>
    rw [blanks, List.flatMap_cons, List.append_assoc, declares_blank, breaks_append,
      ← Nat.add_assoc]
    exact ih

theorem declares_gap (g : Gap) (y : Text) :
    declares cyrillic n o (g.text ++ y) = declares cyrillic (n + g.text.breaks) o y := by
  rw [Gap.text, List.append_assoc, declares_blank, declares_blanks, breaks_append, Nat.add_assoc]

theorem stops_blank (b : Blank) (y : Text) : Stops (b.text ++ y) := by
  cases b with
  | byte b h => exact stops_some_cons (not_continuesWord_of_isBlankByte h) y
  | verticalTab => exact stops_some_cons (by decide) y
  | wide c h =>
    rw [Stops, Blank.text, firstLine_ofBytes_append]
    exact wordGoesOn_of_isWideBlank h _
  | lineBreak => rfl

theorem stops_blanks (s : List Blank) {y : Text} (hy : y.Stops) : Stops (blanks s ++ y) := by
  cases s with
  | nil => exact hy
  | cons b s =>
    rw [blanks, List.flatMap_cons, List.append_assoc]
    exact stops_blank b _

theorem stops_gap (g : Gap) (y : Text) : Stops (g.text ++ y) := by
  rw [Gap.text, List.append_assoc]
  exact stops_blank g.first _

/-- A keyword that is awaited at home. -/
theorem declares_keyword {scope? : Option String} {k : Keyword} (w : Spelling k)
    (hk : k ∈ State.awaited (Outline.home scope?).phase) {y : Text} (hy : y.Stops) :
    declares cyrillic n (Outline.home scope?) (ofBytes w.bytes ++ y)
      = declares cyrillic n ((Outline.home scope?).afterKeyword k) y := by
  rw [declares_word w.spells.ne_nil w.spells.isWord hy, Outline.afterWord_home hk w.spells]
  rfl

/-- A text in which nothing is declared leaves the outline at home. -/
theorem Prose.idle {phase : Phase} (p : Prose phase) {scope? : Option String}
    (h : (Outline.home scope?).phase = phase) : p.text.Idle (Outline.home scope?) := by
  subst h
  intro l hl x hx cyrillic n
  cases x with
  | word w =>
    have hnone : (Outline.home scope?).keyword? w = none := by
      refine List.find?_eq_none.mpr (fun k hk hw => ?_)
      exact p.noKeyword l hl w hx k hk (of_decide_eq_true hw)
    show (Outline.home scope?).afterWord cyrillic n w = _
    rw [Outline.afterWord_outside (Outline.home_cases scope?), hnone]
    rfl
  | mark b =>
    show ((Outline.home scope?).afterMark b, none) = _
    by_cases hb : b = Ascii.semicolon
    · rw [hb, Outline.home, Outline.afterMark_semicolon_home]
      rfl
    · rw [Outline.afterMark_of_ne hb]
      rintro ⟨-, hphase⟩
      rcases Outline.home_cases scope? with hp | hp <;> rw [hp] at hphase <;>
        exact absurd hphase (by decide)

theorem declares_ending (e : Ending) (scope? : Option String) (y : Text) :
    declares cyrillic n (Outline.home scope?) (e.text ++ y)
      = declares cyrillic (n + e.text.breaks) (Outline.home scope?) y := by
  cases e with
  | semicolon =>
    show declares cyrillic n (Outline.home scope?) (some Ascii.semicolon :: y) = _
    rw [declares_mark (by decide) (by decide), Outline.home, Outline.afterMark_semicolon_home]
    rfl
  | blank b => exact declares_blank b y

theorem stops_ending (e : Ending) (y : Text) : Stops (e.text ++ y) := by
  cases e with
  | semicolon => exact stops_some_cons (by decide) y
  | blank b => exact stops_blank b y

/-- **Parts one after another declare what each declares.** The condition `P`
is what a part needs to know of the text behind it. -/
theorem declares_flatMap {α : Type} {text : α → Text} {tags : Nat → α → List Tag}
    {P : Text → Prop} (hP : ∀ x y, P (text x ++ y))
    (h : ∀ n x y, P y → declares cyrillic n o (text x ++ y)
      = tags n x ++ declares cyrillic (n + (text x).breaks) o y)
    (n : Nat) (xs : List α) {y : Text} (hy : P y) :
    declares cyrillic n o (xs.flatMap text ++ y)
      = tagsAlong text tags n xs ++ declares cyrillic (n + breaks (xs.flatMap text)) o y := by
  induction xs generalizing n with
  | nil => rfl
  | cons x xs ih =>
    have hrest : P (xs.flatMap text ++ y) := by
      cases xs with
      | nil => exact hy
      | cons x' xs =>
        rw [List.flatMap_cons, List.append_assoc]
        exact hP x' _
    rw [List.flatMap_cons, List.append_assoc, h n x _ hrest, ih, breaks_append, Nat.add_assoc,
      ← List.append_assoc]
    rfl

end Pieces

/-! ## Lists of variables -/

section Lists

variable {cyrillic : Bool} {n : Nat} {scope? : Option String}

theorem Declarator.idle (d : Declarator cyrillic) (scope? : Option String) :
    d.rest.Idle ⟨.behindVariable, scope?⟩ := by
  intro l hl x hx cyrillic n
  cases x with
  | word w => rfl
  | mark b =>
    obtain ⟨hcomma, hsemi⟩ := d.inside b (mem_of_mem_lines hl (mem_of_mark_mem_lexemes hx))
    show (Outline.afterMark ⟨.behindVariable, scope?⟩ b, none) = _
    rw [Outline.afterMark_of_ne hsemi (fun h => hcomma h.1)]

/-- **A variable is declared** where a name is awaited. -/
theorem declares_declarator (d : Declarator cyrillic) {y : Text} (hy : y.Stops) :
    declares cyrillic n ⟨.beforeVariable, scope?⟩ (d.text ++ y)
      = d.tags scope? n
        ++ declares cyrillic (n + d.text.breaks) ⟨.behindVariable, scope?⟩ y := by
  rw [Declarator.text, List.append_assoc, List.append_assoc, declares_blanks,
    declares_word d.name.ne_nil d.name.isWord (d.stops.append hy),
    Outline.afterWord_beforeVariable, declares_idle (d.idle scope?) hy, breaks_append,
    breaks_append, breaks_ofBytes, Nat.zero_add, Nat.add_assoc]
  rfl

theorem declares_nextDeclarator (n : Nat) (d : Declarator cyrillic) (y : Text) (hy : y.Stops) :
    declares cyrillic n ⟨.behindVariable, scope?⟩ (d.nextText ++ y)
      = d.tags scope? n
        ++ declares cyrillic (n + d.nextText.breaks) ⟨.behindVariable, scope?⟩ y := by
  rw [Declarator.nextText, List.cons_append, declares_mark (by decide) (by decide),
    Outline.afterMark_comma rfl, breaks_some_cons]
  exact declares_declarator d hy

theorem declares_nextDeclarators (n : Nat) (ds : List (Declarator cyrillic)) {y : Text}
    (hy : y.Stops) :
    declares cyrillic n ⟨.behindVariable, scope?⟩ (ds.flatMap Declarator.nextText ++ y)
      = tagsAlong Declarator.nextText (Declarator.tags scope?) n ds
        ++ declares cyrillic (n + breaks (ds.flatMap Declarator.nextText))
          ⟨.behindVariable, scope?⟩ y :=
  declares_flatMap (P := Stops) (fun _ _ => stops_some_cons (by decide) _)
    declares_nextDeclarator n ds hy

theorem VarList.breaks_text (v : VarList cyrillic) :
    v.text.breaks = (blanks v.lead).breaks + v.gap.text.breaks + v.first.text.breaks
      + breaks (v.others.flatMap Declarator.nextText) := by
  rw [VarList.text, breaks_append, breaks_append, breaks_append, breaks_append, breaks_append,
    breaks_ofBytes, breaks_some_cons, breaks_nil]
  omega

/-- **A list of variables declares each of them**, in the function it stands
in. -/
theorem declares_varList (v : VarList cyrillic) (y : Text) :
    declares cyrillic n (Outline.home scope?) (v.text ++ y)
      = v.tags scope? n ++ declares cyrillic (n + v.text.breaks) (Outline.home scope?) y := by
  have hvar : Keyword.var ∈ State.awaited (Outline.home scope?).phase := by
    cases scope? <;> exact List.mem_cons_self
  have hsemi : Stops (some Ascii.semicolon :: y) := stops_some_cons (by decide) y
  have hothers : Stops (v.others.flatMap Declarator.nextText ++ some Ascii.semicolon :: y) := by
    cases v.others with
    | nil => exact hsemi
    | cons d ds => exact stops_some_cons (by decide) _
  have hend (n : Nat) : declares cyrillic n ⟨.behindVariable, scope?⟩ (some Ascii.semicolon :: y)
      = declares cyrillic n (Outline.home scope?) y := by
    rw [declares_mark (by decide) (by decide), Outline.afterMark_semicolon_home]
  have hkeyword (n : Nat) (z : Text) (hz : z.Stops) :
      declares cyrillic n (Outline.home scope?) (ofBytes v.keyword.bytes ++ z)
        = declares cyrillic n ⟨.beforeVariable, scope?⟩ z := declares_keyword v.keyword hvar hz
  have htext : v.text ++ y = blanks v.lead ++ (ofBytes v.keyword.bytes ++ (v.gap.text
      ++ (v.first.text ++ (v.others.flatMap Declarator.nextText
        ++ some Ascii.semicolon :: y)))) := by
    simp only [VarList.text, List.append_assoc, List.cons_append, List.nil_append]
  rw [htext, declares_blanks, hkeyword _ _ (stops_gap _ _), declares_gap,
    declares_declarator v.first hothers, declares_nextDeclarators _ v.others hsemi, hend,
    VarList.tags, List.append_assoc, VarList.breaks_text, VarList.firstAt]
  simp only [Nat.add_assoc]

/-! ## Parts of a body -/

variable {phase : Phase}

theorem declares_statement (s : Statement phase) (h : (Outline.home scope?).phase = phase)
    (y : Text) :
    declares cyrillic n (Outline.home scope?) (s.text ++ y)
      = declares cyrillic (n + s.text.breaks) (Outline.home scope?) y := by
  rw [Statement.text, List.append_assoc, declares_idle (s.prose.idle h) (stops_ending _ _),
    declares_ending, breaks_append, Nat.add_assoc]

theorem declares_part (n : Nat) (p : Part cyrillic phase)
    (h : (Outline.home scope?).phase = phase) (y : Text) :
    declares cyrillic n (Outline.home scope?) (p.text ++ y)
      = p.tags scope? n ++ declares cyrillic (n + p.text.breaks) (Outline.home scope?) y := by
  cases p with
  | vars v => exact declares_varList v y
  | statement s => exact declares_statement s h y

theorem declares_parts (n : Nat) (ps : List (Part cyrillic phase))
    (h : (Outline.home scope?).phase = phase) (y : Text) :
    declares cyrillic n (Outline.home scope?) (ps.flatMap Part.text ++ y)
      = tagsAlong Part.text (Part.tags scope?) n ps
        ++ declares cyrillic (n + breaks (ps.flatMap Part.text)) (Outline.home scope?) y :=
  declares_flatMap (P := fun _ => True) (fun _ _ => trivial)
    (fun n p y _ => declares_part n p h y) n ps trivial

/-! ## Routines -/

theorem declares_head (r : Routine cyrillic) {y : Text} :
    declares cyrillic n (Outline.home none) (r.head ++ y)
      = declares cyrillic (n + r.head.breaks) ⟨.beforeFunction, none⟩ y := by
  rw [Routine.head, List.append_assoc, List.append_assoc, declares_blanks,
    declares_keyword r.keyword (by decide) (stops_gap _ _), declares_gap, breaks_append,
    breaks_append, breaks_ofBytes, Nat.zero_add, Nat.add_assoc]
  rfl

theorem stops_signature (r : Routine cyrillic) (y : Text) : Stops (r.signature ++ y) := by
  rw [Routine.signature, List.append_assoc]
  exact stops_blanks _ (stops_some_cons (by decide) _)

/-- The parameters of a routine are read in its body, and declare nothing. -/
theorem declares_signature (r : Routine cyrillic) (f : String) (y : Text) :
    declares cyrillic n (Outline.home (some f)) (r.signature ++ y)
      = declares cyrillic (n + r.signature.breaks) (Outline.home (some f)) y := by
  have hparen {b : UInt8} (n : Nat) (hb : isBlankByte b = false) (hc : continuesWord b = false)
      (hs : b ≠ Ascii.semicolon) (y : Text) :
      declares cyrillic n (Outline.home (some f)) (some b :: y)
        = declares cyrillic n (Outline.home (some f)) y := by
    rw [declares_mark hb hc, Outline.afterMark_of_ne hs (fun h => Phase.noConfusion h.2)]
  have htext : r.signature ++ y = blanks r.behindName
      ++ (some Ascii.openParen :: (r.parameters.text ++ some Ascii.closeParen :: y)) := by
    simp only [Routine.signature, List.append_assoc, List.cons_append, List.nil_append]
  rw [htext, declares_blanks, hparen _ (by decide) (by decide) (by decide),
    declares_idle (r.parameters.idle rfl) (stops_some_cons (by decide) y),
    hparen _ (by decide) (by decide) (by decide), Routine.signature, breaks_append,
    breaks_some_cons, breaks_append, breaks_some_cons, breaks_nil, Nat.add_assoc, Nat.add_zero]

theorem declares_foot (r : Routine cyrillic) (f : String) (y : Text) :
    declares cyrillic n (Outline.home (some f)) (r.foot ++ y)
      = declares cyrillic (n + r.foot.breaks) (Outline.home none) y := by
  have hend (n : Nat) : declares cyrillic n ((Outline.home (some f)).afterKeyword .endSub)
      (r.ending.text ++ y) = declares cyrillic (n + r.ending.text.breaks) (Outline.home none) y :=
    declares_ending r.ending none y
  have hkeyword : Keyword.endSub ∈ State.awaited (Outline.home (some f)).phase :=
    List.mem_cons_of_mem _ List.mem_cons_self
  rw [Routine.foot, List.append_assoc, List.append_assoc, declares_blanks,
    declares_keyword r.endKeyword hkeyword (stops_ending _ _), hend, breaks_append,
    breaks_append, breaks_ofBytes, Nat.zero_add, Nat.add_assoc]

/-- **A routine declares itself and the variables of its body.** -/
theorem declares_routine (r : Routine cyrillic) (y : Text) :
    declares cyrillic n (Outline.home none) (r.text ++ y)
      = r.tags n ++ declares cyrillic (n + r.text.breaks) (Outline.home none) y := by
  have htext : r.text ++ y = r.head ++ (ofBytes r.name.bytes
      ++ (r.signature ++ (r.body.flatMap Part.text ++ (r.foot ++ y)))) := by
    simp only [Routine.text, List.append_assoc]
  rw [htext, declares_head, declares_word r.name.ne_nil r.name.isWord (stops_signature _ _),
    Outline.afterWord_beforeFunction, declares_signature, declares_parts _ r.body rfl,
    declares_foot, Routine.tags,
    Routine.text, breaks_append, breaks_append, breaks_append, breaks_append, breaks_ofBytes]
  simp only [Nat.add_assoc, Nat.zero_add]
  rfl

/-! ## Modules -/

theorem declares_item (n : Nat) (i : Item cyrillic) (y : Text) :
    declares cyrillic n (Outline.home none) (i.text ++ y)
      = i.tags n ++ declares cyrillic (n + i.text.breaks) (Outline.home none) y := by
  cases i with
  | part p => exact declares_part n p rfl y
  | routine r => exact declares_routine r y

theorem declares_moduleText (items : List (Item cyrillic)) :
    declares cyrillic 1 {} (moduleText items) = moduleTags items := by
  have h : declares cyrillic 1 (Outline.home none) (moduleText items ++ [])
      = moduleTags items
        ++ declares cyrillic (1 + (moduleText items).breaks) (Outline.home none) [] :=
    declares_flatMap (P := fun _ => True) (fun _ _ => trivial)
      (fun n i y _ => declares_item n i y) 1 items trivial
  rw [List.append_nil, declares_nil, List.append_nil] at h
  exact h

end Lists

/-! ## Nothing in a module is skipped -/

section Plain

variable {cyrillic : Bool} {phase : Phase}

theorem plain_blank (b : Blank) : b.text.Plain := by
  cases b with
  | byte b h =>
    refine Plain.some_cons ⟨?_, ?_, ?_⟩ plain_nil
    all_goals
      rintro rfl
      exact absurd h Bool.false_ne_true
  | verticalTab => exact Plain.some_cons (by decide) plain_nil
  | wide c h => exact plain_ofBytes (continuesWord_of_mem_encodeChar h)
  | lineBreak => exact plain_nil.none_cons

theorem plain_blanks (s : List Blank) : (blanks s).Plain := plain_flatMap plain_blank s

theorem plain_gap (g : Gap) : g.text.Plain := (plain_blank g.first).append (plain_blanks g.others)

theorem plain_spelling {k : Keyword} (w : Spelling k) : Plain (ofBytes w.bytes) :=
  plain_ofBytes w.spells.isWord.continuesWord_of_mem

theorem plain_identifier (i : Identifier cyrillic) : Plain (ofBytes i.bytes) :=
  plain_ofBytes i.isWord.continuesWord_of_mem

theorem plain_ending (e : Ending) : e.text.Plain := by
  cases e with
  | semicolon => exact Plain.some_cons (by decide) plain_nil
  | blank b => exact plain_blank b

theorem plain_declarator (d : Declarator cyrillic) : d.text.Plain :=
  (plain_blanks d.lead).append ((plain_identifier d.name).append d.plain)

theorem plain_varList (v : VarList cyrillic) : v.text.Plain := by
  have hothers : Plain (v.others.flatMap Declarator.nextText) :=
    plain_flatMap (fun d => Plain.some_cons (by decide) (plain_declarator d)) v.others
  exact (plain_blanks v.lead).append ((plain_spelling v.keyword).append
    ((plain_gap v.gap).append ((plain_declarator v.first).append
      (hothers.append (Plain.some_cons (by decide) plain_nil)))))

theorem plain_part (p : Part cyrillic phase) : p.text.Plain := by
  cases p with
  | vars v => exact plain_varList v
  | statement s => exact s.prose.plain.append (plain_ending s.ending)

theorem plain_routine (r : Routine cyrillic) : r.text.Plain := by
  have hhead : r.head.Plain :=
    (plain_blanks r.lead).append ((plain_spelling r.keyword).append (plain_gap r.gap))
  have hsignature : r.signature.Plain :=
    (plain_blanks r.behindName).append (Plain.some_cons (by decide)
      (r.parameters.plain.append (Plain.some_cons (by decide) plain_nil)))
  have hfoot : r.foot.Plain :=
    (plain_blanks r.endLead).append ((plain_spelling r.endKeyword).append (plain_ending r.ending))
  exact hhead.append ((plain_identifier r.name).append
    (hsignature.append ((plain_flatMap plain_part r.body).append hfoot)))

theorem plain_moduleText (items : List (Item cyrillic)) : (moduleText items).Plain := by
  refine plain_flatMap (fun i => ?_) items
  cases i with
  | part p => exact plain_part p
  | routine r => exact plain_routine r

end Plain

/-- **A scan undoes the writing of a module.** Whatever choices are made in
writing it, its tags are its declarations: every variable with the function
around it, every routine, and each on the line of its name. -/
theorem tags_moduleText (comments strings cyrillic : Bool) (items : List (Item cyrillic)) :
    tags ⟨comments, strings, cyrillic, .all⟩ (moduleText items).lines = moduleTags items := by
  rw [tags_eq_outlineTags, blanked_lines _ (plain_moduleText items),
    List.filter_eq_self.mpr (fun t _ => KindSet.contains_all t.kind)]
  exact declares_moduleText items

/-- A keyword in capitals at the end of a line, and its variable on the next. -/
example :
    let v : VarList false := ⟨[], ⟨ofString "VAR", Keyword.spells_ofString_iff.mpr (by decide)⟩,
      ⟨.lineBreak, []⟩, ⟨[], ⟨ofString "x", by decide, by decide⟩, [], rfl, plain_nil,
        fun _ h => absurd h List.not_mem_nil⟩, []⟩
    (moduleText [.part (.vars v)]).lines = [ofString "VAR", ofString "x;"] ∧
      (moduleTags [.part (.vars v)]).map Tag.line = [2] := by
  decide

end DeclTags
