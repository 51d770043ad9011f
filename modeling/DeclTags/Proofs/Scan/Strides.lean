import DeclTags.Proofs.Scope
import Mathlib.Data.List.Basic

/-!
# The strides of a scan

Most steps of a scan say nothing. A step that says something says a little
more than one thing: a keyword is taken *and* the phase changes, a name is
found *and* the phase changes, a body ends *and* a keyword was taken for it.
What is said in one go is a **stride**. There are seven kinds of them, and the
one that says nothing (`Outline.Stride`); each leads from the outline before it to
the outline behind it.

The list of strides is shorter than the list of what a step could say. A step
over the keyword that ends bodies has a branch for the case that there is no
body to end. No stride belongs to it: a scan is in a body only if it knows
whose body it is (`State.Coherent`), so the branch is never taken.

All that happens in a scan is a sequence of strides (`Run.strides`). A
statement about what stands next to what among the events of a scan is
therefore a statement about strides: an event that happens, happens in the
middle of one (`Outline.Strides.cut`).
-/

namespace DeclTags

open Utf8

namespace Phase

/-- **The phases that may follow a phase.** -/
def next : Phase → List Phase
  | outside => [beforeVariable, beforeFunction]
  | body => [beforeVariable, outside]
  | beforeFunction => [body, outside]
  | beforeVariable => [behindVariable, outside, body]
  | behindVariable => [beforeVariable, outside, body]

/-- **Changes that make up a path** from one phase to another: each starts
where the one before it ended, and ends in a phase that may follow. -/
inductive Path : Phase → List (Phase × Phase) → Phase → Prop
  /-- There are no changes. -/
  | nil (a : Phase) : Path a [] a
  /-- There is a change, and others. -/
  | cons {a b c : Phase} {changes : List (Phase × Phase)} (edge : b ∈ a.next)
      (later : Path b changes c) : Path a ((a, b) :: changes) c

theorem Path.single {a b : Phase} (edge : b ∈ a.next) : Path a [(a, b)] b := .cons edge (.nil b)

theorem Path.append {a b c : Phase} {xs ys : List (Phase × Phase)} (h : Path a xs b)
    (h' : Path b ys c) : Path a (xs ++ ys) c := by
  induction h with
  | nil => exact h'
  | cons edge _ ih => exact .cons edge (ih h')

end Phase

/-- The change of phase that an event is, if it is one. -/
def Event.change? : Event → Option (Phase × Phase)
  | change source target => some (source, target)
  | _ => none

/-- **The changes of phase** among some events, in order. -/
def changesOf (es : List Event) : List (Phase × Phase) := es.filterMap Event.change?

namespace Outline

/-- **What happens in one go**, from one outline to the next. -/
inductive Stride : Outline → List Event → Outline → Prop
  /-- Nothing happens. -/
  | quiet (o : Outline) : Stride o [] o
  /-- A list of variables starts. -/
  | var {o : Outline} (line column : Nat) (phase : o.phase = .outside ∨ o.phase = .body) :
      Stride o [.keyword .var line column, .change o.phase .beforeVariable]
        { o with phase := .beforeVariable }
  /-- The header of a function starts. -/
  | sub (line column : Nat) :
      Stride ⟨.outside, none⟩ [.keyword .sub line column, .change .outside .beforeFunction]
        ⟨.beforeFunction, none⟩
  /-- The body of a function ends. -/
  | endSub (f : String) (line column : Nat) :
      Stride ⟨.body, some f⟩
        [.keyword .endSub line column, .bodyEnd f line, .change .body .outside] ⟨.outside, none⟩
  /-- A function has its name, and its body starts. -/
  | function {t : Tag} (kind : t.kind = .function) (scope : t.scope? = none) :
      Stride ⟨.beforeFunction, none⟩ [.tag t, .change .beforeFunction .body] ⟨.body, some t.name⟩
  /-- A variable has its name. -/
  | variable {t : Tag} (kind : t.kind = .var) :
      Stride ⟨.beforeVariable, t.scope?⟩ [.tag t, .change .beforeVariable .behindVariable]
        ⟨.behindVariable, t.scope?⟩
  /-- Another variable follows. -/
  | comma (f? : Option String) :
      Stride ⟨.behindVariable, f?⟩ [.change .behindVariable .beforeVariable] ⟨.beforeVariable, f?⟩
  /-- A declaration ends. -/
  | semicolon {o : Outline} (phase : o.phase ∉ [Phase.outside, Phase.body]) :
      Stride o [.change o.phase o.statementPhase] { o with phase := o.statementPhase }

/-- **One stride after another.** -/
inductive Strides : Outline → List Event → Outline → Prop
  /-- None at all. -/
  | nil (o : Outline) : Strides o [] o
  /-- A stride, and others. -/
  | cons {a b c : Outline} {es fs : List Event} (stride : Stride a es b) (later : Strides b fs c) :
      Strides a (es ++ fs) c

namespace Strides

variable {a b c : Outline} {es fs : List Event}

theorem append (h : Strides a es b) (h' : Strides b fs c) : Strides a (es ++ fs) c := by
  induction h with
  | nil => exact h'
  | cons stride _ ih =>
    rw [List.append_assoc]
    exact cons stride (ih h')

theorem snoc (h : Strides a es b) (stride : Stride b fs c) : Strides a (es ++ fs) c := by
  have hlast : Strides b (fs ++ []) c := cons stride (nil c)
  rw [List.append_nil] at hlast
  exact h.append hlast

/-- **An event happens in the middle of a stride**, with other strides before
and behind. -/
theorem cut {xs ys : List Event} {e : Event} (h : Strides a es b) (he : es = xs ++ e :: ys) :
    ∃ before pre post later m n, xs = before ++ pre ∧ ys = post ++ later ∧ Strides a before m ∧
      Stride m (pre ++ e :: post) n ∧ Strides n later b := by
  induction h generalizing xs with
  | nil => exact absurd he.symm (by simp)
  | @cons a b c es fs stride later ih =>
    rcases List.append_eq_append_iff.mp he with ⟨us, rfl, hfs⟩ | ⟨us, rfl, heys⟩
    · -- the event is in a later stride
      obtain ⟨before, pre, post, rest, m, n, rfl, rfl, hbefore, hstride, hrest⟩ := ih hfs
      exact ⟨es ++ before, pre, post, rest, m, n, (List.append_assoc ..).symm, rfl,
        cons stride hbefore, hstride, hrest⟩
    · cases us with
      | nil =>
        -- the event is the first behind the stride
        obtain ⟨before, pre, post, rest, m, n, hnil, rfl, hbefore, hstride, hrest⟩ :=
          ih (show fs = [] ++ e :: ys from heys.symm)
        refine ⟨xs ++ before, pre, post, rest, m, n, ?_, rfl, ?_, hstride, hrest⟩
        · rw [List.append_assoc, ← hnil, List.append_nil]
        · rw [List.append_nil] at stride
          exact cons stride hbefore
      | cons e' us =>
        obtain ⟨rfl, rfl⟩ := List.cons.inj heys
        exact ⟨[], xs, us, fs, a, b, rfl, rfl, nil a, stride, later⟩

end Strides

/-- That a body is open is not said in a stride. -/
theorem Stride.openBody_not_mem {a b : Outline} {es : List Event} {f : String}
    (h : Stride a es b) : .openBody f ∉ es := by
  cases h <;> simp

theorem Strides.openBody_not_mem {a b : Outline} {es : List Event} {f : String}
    (h : Strides a es b) : .openBody f ∉ es := by
  induction h with
  | nil => exact List.not_mem_nil
  | cons stride _ ih => exact fun he => (List.mem_append.mp he).elim stride.openBody_not_mem ih

/-! ## What strides say about scopes -/

/-- The events of a stride are read with the function that is open. -/
theorem Stride.scoped {a b : Outline} {es : List Event} (h : Stride a es b) :
    Scoped a.enclosing? es b.enclosing? := by
  cases h with
  | quiet => exact .nil _
  | var | sub => exact .other rfl rfl (.other rfl rfl (.nil _))
  | endSub => exact .endBody (.other rfl rfl (.other rfl rfl (.nil _)))
  | function kind scope => exact .function kind scope (.other rfl rfl (.nil _))
  | «variable» kind => exact .var kind (.other rfl rfl (.nil _))
  | comma | semicolon => exact .other rfl rfl (.nil _)

theorem Strides.scoped {a b : Outline} {es : List Event} (h : Strides a es b) :
    Scoped a.enclosing? es b.enclosing? := by
  induction h with
  | nil => exact .nil _
  | cons stride _ ih => exact stride.scoped.append ih

/-! ## What strides say about phases -/

/-- A stride changes the phase at most once, and to a phase that may follow. -/
theorem Stride.path {a b : Outline} {es : List Event} (h : Stride a es b) :
    Phase.Path a.phase (changesOf es) b.phase := by
  cases h with
  | quiet => exact .nil _
  | var line column phase =>
    refine .single ?_
    rcases phase with phase | phase <;> rw [phase] <;> decide
  | semicolon between =>
    refine .single ?_
    obtain ⟨phase, enclosing?⟩ := a
    cases phase with
    | outside | body => exact absurd between (by simp)
    | _ => cases enclosing? <;> simp [statementPhase, Phase.next]
  | _ => exact .single (by simp [Phase.next])

/-- **The changes of phase follow one another.** -/
theorem Strides.path {a b : Outline} {es : List Event} (h : Strides a es b) :
    Phase.Path a.phase (changesOf es) b.phase := by
  induction h with
  | nil => exact .nil _
  | cons stride _ ih =>
    rw [changesOf, List.filterMap_append]
    exact stride.path.append ih

/-! ## The end of a body -/

/-- What happens when the body of a function ends: the keyword is taken, the
body is left, and the phase changes. -/
def ending (f : String) (line column : Nat) : List Event :=
  [.keyword .endSub line column, .bodyEnd f line, .change .body .outside]

section Ending

variable {a b : Outline} {es pre post : List Event} {line column : Nat}

/-- The keyword that ends bodies is taken only where the body of the open
function ends. -/
theorem Stride.eq_ending_of_keyword (h : Stride a es b) (he : .keyword .endSub line column ∈ es) :
    ∃ f, a.enclosing? = some f ∧ es = ending f line column := by
  cases h with
  | endSub f line' column' =>
    obtain ⟨rfl, rfl⟩ : line = line' ∧ column = column' := by simpa using he
    exact ⟨f, rfl, rfl⟩
  | _ => exact absurd he (by simp)

/-- A body is left for the outside only where it ends. -/
theorem Stride.eq_ending_of_change (h : Stride a es b) (he : .change .body .outside ∈ es) :
    ∃ f line column, es = ending f line column := by
  cases h with
  | endSub f line column => exact ⟨f, line, column, rfl⟩
  | semicolon phase =>
    have hbody : Phase.body = a.phase := (Event.change.inj (List.mem_singleton.mp he)).1
    exact absurd (hbody ▸ List.mem_cons_of_mem _ List.mem_cons_self) phase
  | _ => exact absurd he (by simp)

/-- **Behind the keyword that ends bodies** the body of the open function
ends, and the phase changes. -/
theorem Stride.of_keyword (h : Stride a (pre ++ .keyword .endSub line column :: post) b) :
    pre = [] ∧ ∃ f, a.enclosing? = some f ∧ post = [.bodyEnd f line, .change .body .outside] := by
  obtain ⟨f, hf, hes⟩ := h.eq_ending_of_keyword (List.mem_append_right _ List.mem_cons_self)
  have hsplit : [] ++ Event.keyword .endSub line column :: [.bodyEnd f line, .change .body .outside]
      = pre ++ .keyword .endSub line column :: post := hes.symm
  rw [List.append_cons_inj_of_notMem (by simp) (by simp)] at hsplit
  exact ⟨hsplit.1.symm, f, hf, hsplit.2.2.symm⟩

/-- **Before the change from a body to the outside** the keyword that ends
bodies is taken, and the body of a function ends. -/
theorem Stride.of_change (h : Stride a (pre ++ .change .body .outside :: post) b) :
    ∃ f line column, pre = [.keyword .endSub line column, .bodyEnd f line] := by
  obtain ⟨f, line, column, hes⟩ :=
    h.eq_ending_of_change (List.mem_append_right _ List.mem_cons_self)
  have hsplit : [.keyword .endSub line column, .bodyEnd f line]
      ++ Event.change .body .outside :: [] = pre ++ .change .body .outside :: post := hes.symm
  rw [List.append_cons_inj_of_notMem (by simp) (by simp)] at hsplit
  exact ⟨f, line, column, hsplit.1.symm⟩

end Ending

end Outline

/-! ## Every step is a stride -/

namespace State

variable {rules : Rules} {line : Nat} {s : State} {p : Place}

theorem changeTo_of_ne {phase : Phase} (h : s.phase ≠ phase) :
    s.changeTo phase = [.change s.phase phase] := by
  rw [changeTo, if_neg h]

/-- A keyword is looked for between declarations only. -/
theorem phase_of_awaited {k : Keyword} (h : k ∈ awaited s.phase) :
    s.phase = .outside ∨ s.phase = .body := by
  cases hphase : s.phase with
  | outside => exact .inl rfl
  | body => exact .inr rfl
  | _ =>
    rw [hphase] at h
    exact absurd h List.not_mem_nil

/-- A function is looked for outside every body. -/
theorem phase_of_sub (h : Keyword.sub ∈ awaited s.phase) : s.phase = .outside :=
  (phase_of_awaited h).resolve_right fun hbody => by
    rw [hbody] at h
    exact absurd h (by decide)

/-- The end of a body is looked for in a body. -/
theorem phase_of_endSub (h : Keyword.endSub ∈ awaited s.phase) : s.phase = .body :=
  (phase_of_awaited h).resolve_left fun houtside => by
    rw [houtside] at h
    exact absurd h (by decide)

theorem outline_of_phase {phase : Phase} (h : s.phase = phase) :
    s.outline = ⟨phase, s.enclosing?⟩ := by
  rw [outline, h]

/-- Between declarations a semicolon leads nowhere. -/
theorem Coherent.statementPhase_eq (h : s.Coherent) (hp : s.phase = .outside ∨ s.phase = .body) :
    s.statementPhase = s.phase := by
  unfold statementPhase
  rcases hp with hp | hp
  · rw [h.outside hp, hp]
    rfl
  · rw [h.body hp, hp]
    rfl

/-- **A semicolon** ends a declaration, or says nothing. -/
theorem Coherent.stride_semicolon (h : s.Coherent) :
    Outline.Stride s.outline (s.changeTo s.statementPhase)
      { s.outline with phase := s.statementPhase } := by
  by_cases hp : s.phase = .outside ∨ s.phase = .body
  · rw [changeTo, h.statementPhase_eq hp, if_pos rfl]
    exact .quiet s.outline
  · have hnotMem : s.phase ∉ [Phase.outside, Phase.body] := by simpa using hp
    have hne : s.phase ≠ s.statementPhase := by
      intro he
      rw [he, statementPhase] at hp
      split at hp
      · exact hp (.inr rfl)
      · exact hp (.inl rfl)
    rw [changeTo_of_ne hne]
    exact .semicolon (o := s.outline) hnotMem

/-- **A move is a stride**, where phase and enclosing function agree and all
kinds are wanted. -/
theorem Move.stride {e : Step} (hm : Move rules line s p e) (h : s.Coherent)
    (hk : rules.kinds = .all) : Outline.Stride s.outline e.events e.state.outline := by
  cases hm with
  | pass mode n => exact .quiet _
  | semicolon => exact h.stride_semicolon
  | comma phase =>
    show Outline.Stride s.outline (s.changeTo .beforeVariable) ⟨.beforeVariable, s.enclosing?⟩
    rw [outline_of_phase phase, changeTo_of_ne (by simp [phase]), phase]
    exact .comma _
  | @takeKeyword k n awaited found =>
    cases k with
    | var =>
      have hphase := phase_of_awaited awaited
      have hne : s.phase ≠ .beforeVariable := by
        intro he
        simp [he] at hphase
      show Outline.Stride s.outline (.keyword .var line _ :: s.changeTo .beforeVariable)
        ⟨.beforeVariable, s.enclosing?⟩
      rw [changeTo_of_ne hne]
      exact .var (o := s.outline) line _ hphase
    | sub =>
      have hphase := phase_of_sub awaited
      show Outline.Stride s.outline (.keyword .sub line _ :: s.changeTo .beforeFunction)
        ⟨.beforeFunction, s.enclosing?⟩
      rw [outline_of_phase hphase, changeTo_of_ne (by simp [hphase]), hphase,
        h.eq_none_of_awaited awaited]
      exact .sub line _
    | endSub =>
      have hphase := phase_of_endSub awaited
      -- it is known whose body ends, so the branch for no function is not taken
      obtain ⟨f, hf⟩ := h.exists_of_awaited awaited
      show Outline.Stride s.outline (s.takeKeyword line p.skipBlanks .endSub n).events
        ⟨.outside, none⟩
      rw [outline_of_phase hphase, hf, State.takeKeyword]
      dsimp only [goTo]
      rw [hf, changeTo_of_ne (by simp [hphase])]
      dsimp only
      rw [hphase]
      exact .endSub f line _
  | takeFunction phase starts =>
    show Outline.Stride s.outline (declare rules _ ++ changeTo _ .body) ⟨.body, some _⟩
    rw [outline_of_phase phase, h.header phase, declare_of_all hk (name_ne_empty starts),
      changeTo_of_ne (by simp [phase]), phase]
    exact .function (t := ⟨_, .function, line, none⟩) rfl rfl
  | takeVariable phase starts =>
    show Outline.Stride s.outline (declare rules _ ++ changeTo _ .behindVariable)
      ⟨.behindVariable, s.enclosing?⟩
    rw [outline_of_phase phase, declare_of_all hk (name_ne_empty starts),
      changeTo_of_ne (by simp [phase]), phase]
    exact .variable (t := ⟨_, .var, line, s.enclosing?⟩) rfl

end State

/-- **What has happened in a run** is a sequence of strides. -/
theorem Run.strides {rules : Rules} {lines : List Bytes} {n : Nat} {s : State} {p : Place}
    {es : List Event} (h : Run rules lines n s p es) (hk : rules.kinds = .all) :
    Outline.Strides {} es s.outline := by
  induction h with
  | start => exact .nil _
  | step run _ ih => exact ih.snoc ((State.move_step _ rules _ _).stride run.coherent hk)
  | nextLine _ _ _ ih => exact ih

end DeclTags
