import DeclTags.Proofs.Outline
import DeclTags.Proofs.Scan.Run

/-!
# Scopes

The scope of a variable is the function whose body it stands in, and a scan
keeps that function beside the phase, as a field of its own. Two things could
go wrong. The two fields could disagree – a body without a function, a
function outside every body. And the field could be out of step with what
the scan has reported: a reader of the tags knows only the functions before a
variable, and the log the keywords that ended their bodies.

Neither happens. `State.Coherent` is what the two fields have in common in
every state that a scan comes to, and every step keeps it. `Scoped` reads a
list of events the way its reader does: a function opens a body, the keyword
that ends bodies closes it, and a variable has the scope that is open. A
coherent state takes a step whose events can be read so, from the function it
is in to the function it is in afterwards. All that is said about the tags of
a source follows from that by looking at lists of events only.
-/

namespace DeclTags

open Utf8

/-! ## Bodies in a list of events -/

namespace Event

/-- Is a function declared? -/
def declaresFunction : Event → Bool
  | tag t => t.kind = .function
  | _ => false

/-- Is the keyword taken that ends a body? -/
def endsBody : Event → Bool
  | keyword .endSub _ _ => true
  | _ => false

end Event

/-- **The latest function** declared among some events, and what has happened
since. -/
structure Latest (es : List Event) (f : Tag) (since : List Event) : Prop where
  /-- It is a function. -/
  kind_eq : f.kind = .function
  /-- It was declared, and the rest has happened since. -/
  declared : ∃ before, es = before ++ .tag f :: since
  /-- No other function has been declared since. -/
  none_since : ∀ e ∈ since, e.declaresFunction = false

/-- **The scopes of some events are right.** -/
structure ScopesRight (es : List Event) : Prop where
  /-- A function has no scope. -/
  function : ∀ t, .tag t ∈ es → t.kind = .function → t.scope? = none
  /-- A variable with a scope stands in the body of the latest function. -/
  inside : ∀ xs t ys f, es = xs ++ .tag t :: ys → t.kind = .var → t.scope? = some f →
    ∃ g since, Latest xs g since ∧ g.name = f ∧ ∀ e ∈ since, e.endsBody = false
  /-- A variable without a scope stands outside every body. -/
  outside : ∀ xs t ys, es = xs ++ .tag t :: ys → t.kind = .var → t.scope? = none →
    (∀ e ∈ xs, e.declaresFunction = false) ∨
      ∃ g since, Latest xs g since ∧ ∃ e ∈ since, e.endsBody = true
  /-- Between a function and the next, one body ends. -/
  between : ∀ xs f ys g zs, es = xs ++ .tag f :: (ys ++ .tag g :: zs) → f.kind = .function →
    g.kind = .function → (∀ e ∈ ys, e.declaresFunction = false) → ys.countP Event.endsBody = 1

/-- **Events read with the function that is open**, before them and after
them. Functions do not nest, so one is declared only where none is open. -/
inductive Scoped : Option String → List Event → Option String → Prop
  /-- Nothing happens. -/
  | nil (f? : Option String) : Scoped f? [] f?
  /-- A function is declared, and its body opens. -/
  | function {t : Tag} {es : List Event} {g? : Option String} (kind : t.kind = .function)
      (scope : t.scope? = none) (later : Scoped (some t.name) es g?) :
      Scoped none (.tag t :: es) g?
  /-- A variable is declared in the body that is open. -/
  | var {t : Tag} {es : List Event} {g? : Option String} (kind : t.kind = .var)
      (later : Scoped t.scope? es g?) : Scoped t.scope? (.tag t :: es) g?
  /-- The open body ends. -/
  | endBody {f : String} {line column : Nat} {es : List Event} {g? : Option String}
      (later : Scoped none es g?) : Scoped (some f) (.keyword .endSub line column :: es) g?
  /-- Anything else happens. -/
  | other {f? g? : Option String} {e : Event} {es : List Event} (tag : e.tag? = none)
      (ends : e.endsBody = false) (later : Scoped f? es g?) : Scoped f? (e :: es) g?

theorem Event.declaresFunction_of_tag? {e : Event} (h : e.tag? = none) :
    e.declaresFunction = false := by
  cases e with
  | tag t => exact absurd h (by simp [tag?])
  | _ => rfl

namespace Event

theorem declaresFunction_of_function {t : Tag} (h : t.kind = .function) :
    (tag t).declaresFunction = true := decide_eq_true h

theorem declaresFunction_of_var {t : Tag} (h : t.kind = .var) :
    (tag t).declaresFunction = false := by
  rw [declaresFunction, h]
  rfl

end Event

/-- A later function is the latest one of more events, too. -/
theorem Latest.cons {es since : List Event} {f : Tag} (h : Latest es f since) (e : Event) :
    Latest (e :: es) f since := by
  obtain ⟨before, he⟩ := h.declared
  exact ⟨h.kind_eq, ⟨e :: before, congrArg (e :: ·) he⟩, h.none_since⟩

namespace Scoped

variable {f? g? h? : Option String} {xs ys es : List Event}

theorem append (hx : Scoped f? xs g?) (hy : Scoped g? ys h?) : Scoped f? (xs ++ ys) h? := by
  induction hx with
  | nil => exact hy
  | function kind scope _ ih => exact function kind scope (ih hy)
  | var kind _ ih => exact var kind (ih hy)
  | endBody _ ih => exact endBody (ih hy)
  | other tag ends _ ih => exact other tag ends (ih hy)

theorem of_append (h : Scoped f? (xs ++ ys) h?) : ∃ g?, Scoped f? xs g? ∧ Scoped g? ys h? := by
  induction xs generalizing f? with
  | nil => exact ⟨f?, nil f?, h⟩
  | cons e xs ih =>
    cases h with
    | function kind scope later =>
      obtain ⟨g?, hx, hy⟩ := ih later
      exact ⟨g?, function kind scope hx, hy⟩
    | var kind later =>
      obtain ⟨g?, hx, hy⟩ := ih later
      exact ⟨g?, var kind hx, hy⟩
    | endBody later =>
      obtain ⟨g?, hx, hy⟩ := ih later
      exact ⟨g?, endBody hx, hy⟩
    | other tag ends later =>
      obtain ⟨g?, hx, hy⟩ := ih later
      exact ⟨g?, other tag ends hx, hy⟩

/-- **Without a new function, one body ends if one was open and none is.** -/
theorem countP_endsBody (h : Scoped f? es g?) (hnone : ∀ e ∈ es, e.declaresFunction = false) :
    es.countP Event.endsBody + g?.isSome.toNat = f?.isSome.toNat := by
  induction h with
  | nil => exact Nat.zero_add _
  | function kind =>
    have hfalse := hnone _ List.mem_cons_self
    rw [Event.declaresFunction_of_function kind] at hfalse
    exact Bool.noConfusion hfalse
  | var _ _ ih =>
    rw [List.countP_cons_of_neg (by exact Bool.false_ne_true)]
    exact ih (fun e he => hnone e (List.mem_cons_of_mem _ he))
  | endBody _ ih =>
    have hlater := ih (fun e he => hnone e (List.mem_cons_of_mem _ he))
    rw [List.countP_cons_of_pos rfl, Nat.add_right_comm, hlater]
    rfl
  | other _ ends _ ih =>
    rw [List.countP_cons_of_neg (by rw [ends]; exact Bool.false_ne_true)]
    exact ih (fun e he => hnone e (List.mem_cons_of_mem _ he))

/-- Without a new function and without the end of a body, what is open stays
open. -/
theorem eq_of_quiet (h : Scoped f? es g?)
    (hquiet : ∀ e ∈ es, e.declaresFunction = false ∧ e.endsBody = false) : g? = f? := by
  induction h with
  | nil => rfl
  | function kind =>
    have hfalse := (hquiet _ List.mem_cons_self).1
    rw [Event.declaresFunction_of_function kind] at hfalse
    exact Bool.noConfusion hfalse
  | endBody => exact Bool.noConfusion (hquiet _ List.mem_cons_self).2
  | var _ _ ih | other _ _ _ ih => exact ih (fun e he => hquiet e (List.mem_cons_of_mem _ he))

/-- **The open function is the latest one**, and its body has not ended –
unless it was open from the start. -/
theorem latest_of_some {f : String} (h : Scoped f? es g?) (hg : g? = some f) :
    (f? = some f ∧ ∀ e ∈ es, e.declaresFunction = false ∧ e.endsBody = false) ∨
      ∃ g since, Latest es g since ∧ g.name = f ∧ ∀ e ∈ since, e.endsBody = false := by
  have quiet {e : Event} {es : List Event} (he : e.declaresFunction = false ∧ e.endsBody = false)
      (hes : ∀ e ∈ es, e.declaresFunction = false ∧ e.endsBody = false) :
      ∀ e' ∈ e :: es, e'.declaresFunction = false ∧ e'.endsBody = false := by
    intro e' he'
    rcases List.mem_cons.mp he' with rfl | he'
    · exact he
    · exact hes e' he'
  induction h with
  | nil => exact .inl ⟨hg, fun _ h => absurd h List.not_mem_nil⟩
  | function kind _ _ ih =>
    rcases ih hg with ⟨hopen, hquiet⟩ | ⟨g, since, hlatest, hrest⟩
    · exact .inr ⟨_, _, ⟨kind, ⟨[], rfl⟩, fun e he => (hquiet e he).1⟩, Option.some.inj hopen,
        fun e he => (hquiet e he).2⟩
    · exact .inr ⟨g, since, hlatest.cons _, hrest⟩
  | var kind _ ih =>
    rcases ih hg with ⟨hopen, hquiet⟩ | ⟨g, since, hlatest, hrest⟩
    · exact .inl ⟨hopen, quiet ⟨Event.declaresFunction_of_var kind, rfl⟩ hquiet⟩
    · exact .inr ⟨g, since, hlatest.cons _, hrest⟩
  | endBody _ ih =>
    rcases ih hg with ⟨hopen, -⟩ | ⟨g, since, hlatest, hrest⟩
    · exact absurd hopen (by simp)
    · exact .inr ⟨g, since, hlatest.cons _, hrest⟩
  | other tag ends _ ih =>
    rcases ih hg with ⟨hopen, hquiet⟩ | ⟨g, since, hlatest, hrest⟩
    · exact .inl ⟨hopen, quiet ⟨Event.declaresFunction_of_tag? tag, ends⟩ hquiet⟩
    · exact .inr ⟨g, since, hlatest.cons _, hrest⟩

/-- **Where no function is open**, none was declared, or the body of the
latest one has ended. -/
theorem latest_of_none (h : Scoped f? es g?) (hg : g? = none) :
    (∀ e ∈ es, e.declaresFunction = false) ∨
      ∃ g since, Latest es g since ∧ ∃ e ∈ since, e.endsBody = true := by
  have none_cons {e : Event} {es : List Event} (he : e.declaresFunction = false)
      (hes : ∀ e ∈ es, e.declaresFunction = false) : ∀ e' ∈ e :: es, e'.declaresFunction = false :=
    List.forall_mem_cons.mpr ⟨he, hes⟩
  induction h with
  | nil => exact .inl (fun _ h => absurd h List.not_mem_nil)
  | function kind _ later ih =>
    subst hg
    rcases ih rfl with hnone | ⟨g, since, hlatest, hrest⟩
    · -- the body was open, and no other function has been declared, so it has ended
      have hone : List.countP Event.endsBody _ = 1 := later.countP_endsBody hnone
      exact .inr ⟨_, _, ⟨kind, ⟨[], rfl⟩, hnone⟩,
        List.countP_pos_iff.mp (hone ▸ Nat.one_pos)⟩
    · exact .inr ⟨g, since, hlatest.cons _, hrest⟩
  | var kind _ ih =>
    rcases ih hg with hnone | ⟨g, since, hlatest, hrest⟩
    · exact .inl (none_cons (Event.declaresFunction_of_var kind) hnone)
    · exact .inr ⟨g, since, hlatest.cons _, hrest⟩
  | endBody _ ih =>
    rcases ih hg with hnone | ⟨g, since, hlatest, hrest⟩
    · exact .inl (none_cons rfl hnone)
    · exact .inr ⟨g, since, hlatest.cons _, hrest⟩
  | other tag _ _ ih =>
    rcases ih hg with hnone | ⟨g, since, hlatest, hrest⟩
    · exact .inl (none_cons (Event.declaresFunction_of_tag? tag) hnone)
    · exact .inr ⟨g, since, hlatest.cons _, hrest⟩

/-- At a function, no function is open, and it has no scope. -/
theorem of_function {t : Tag} (h : Scoped f? (.tag t :: es) g?) (ht : t.kind = .function) :
    f? = none ∧ t.scope? = none ∧ Scoped (some t.name) es g? := by
  cases h with
  | function _ scope later => exact ⟨rfl, scope, later⟩
  | var kind => exact absurd (ht.symm.trans kind) (by decide)
  | other tag => exact absurd tag (by simp [Event.tag?])

/-- At a variable, its scope is open. -/
theorem of_var {t : Tag} (h : Scoped f? (.tag t :: es) g?) (ht : t.kind = .var) :
    f? = t.scope? := by
  cases h with
  | function kind => exact absurd (ht.symm.trans kind) (by decide)
  | var => rfl
  | other tag => exact absurd tag (by simp [Event.tag?])

/-- **Events that can be read with the function that is open have the right
scopes.** -/
theorem scopesRight (h : Scoped none es g?) : ScopesRight es := by
  constructor
  case function =>
    intro t ht hkind
    obtain ⟨xs, ys, rfl⟩ := List.append_of_mem ht
    obtain ⟨f?, -, hy⟩ := h.of_append
    exact (hy.of_function hkind).2.1
  case inside =>
    rintro xs t ys f rfl hkind hscope
    obtain ⟨f?, hx, hy⟩ := h.of_append
    rw [hy.of_var hkind, hscope] at hx
    rcases hx.latest_of_some rfl with ⟨hopen, -⟩ | hlatest
    · exact absurd hopen (by simp)
    · exact hlatest
  case outside =>
    rintro xs t ys rfl hkind hscope
    obtain ⟨f?, hx, hy⟩ := h.of_append
    rw [hy.of_var hkind, hscope] at hx
    exact hx.latest_of_none rfl
  case between =>
    rintro xs f ys g zs rfl hf hg hnone
    obtain ⟨f?, -, hy⟩ := h.of_append
    obtain ⟨g?, hys, hz⟩ := (hy.of_function hf).2.2.of_append
    rw [(hz.of_function hg).1] at hys
    exact hys.countP_endsBody hnone

/-! ## The events of a step -/

/-- Events that declare nothing and end no body leave things as they are. -/
theorem of_forall (f? : Option String) (h : ∀ e ∈ es, e.tag? = none ∧ e.endsBody = false) :
    Scoped f? es f? := by
  induction es with
  | nil => exact nil f?
  | cons e es ih =>
    obtain ⟨htag, hends⟩ := h e List.mem_cons_self
    exact other htag hends (ih (fun e' he' => h e' (List.mem_cons_of_mem e he')))

theorem changeTo (f? : Option String) (s : State) (phase : Phase) :
    Scoped f? (s.changeTo phase) f? := by
  refine of_forall f? (fun e he => ?_)
  unfold State.changeTo at he
  split at he
  · exact absurd he List.not_mem_nil
  · rw [List.mem_singleton.mp he]
    exact ⟨rfl, rfl⟩

theorem closing (f? : Option String) (s : State) : Scoped f? s.closing f? := by
  refine of_forall f? (fun e he => ?_)
  unfold State.closing at he
  split at he
  · rw [List.mem_singleton.mp he]
    exact ⟨rfl, rfl⟩
  · exact absurd he List.not_mem_nil

end Scoped

namespace State

/-- **The phase and the enclosing function agree.** -/
structure Coherent (s : State) : Prop where
  /-- Outside every body there is no function. -/
  outside : s.phase = .outside → s.enclosing? = none
  /-- Functions do not nest. -/
  header : s.phase = .beforeFunction → s.enclosing? = none
  /-- A body is the body of a function. -/
  body : s.phase = .body → s.enclosing?.isSome = true
  /-- Every function has a name. -/
  named : ∀ f, s.enclosing? = some f → f ≠ ""

/-- Outside every body, without a function. -/
theorem coherent_outside (mode : Mode) : Coherent ⟨.outside, mode, none⟩ :=
  ⟨fun _ => rfl, fun _ => rfl, fun h => Phase.noConfusion h, fun _ h => absurd h (by simp)⟩

variable {rules : Rules} {line : Nat} {s : State} {p : Place}

/-- In a list of variables the enclosing function does not matter. -/
theorem Coherent.toList (h : s.Coherent) {phase : Phase}
    (hp : phase = .beforeVariable ∨ phase = .behindVariable) :
    Coherent { s with phase := phase } := by
  constructor
  case named => exact h.named
  all_goals
    dsimp only
    rintro rfl
    simp at hp

/-- A semicolon leads to the phase that the enclosing function asks for. -/
theorem Coherent.toStatement (h : s.Coherent) : Coherent { s with phase := s.statementPhase } := by
  unfold statementPhase
  split
  · rename_i he
    exact ⟨fun h => Phase.noConfusion h, fun h => Phase.noConfusion h, fun _ => he, h.named⟩
  · rename_i he
    have he : s.enclosing? = none := Option.not_isSome_iff_eq_none.mp he
    exact ⟨fun _ => he, fun _ => he, fun h => Phase.noConfusion h, h.named⟩

/-- The function is known where the keyword that ends its body is looked for. -/
theorem Coherent.exists_of_awaited (h : s.Coherent) (hk : Keyword.endSub ∈ awaited s.phase) :
    ∃ f, s.enclosing? = some f := by
  cases hphase : s.phase with
  | body => exact Option.isSome_iff_exists.mp (h.body hphase)
  | _ =>
    rw [hphase] at hk
    exact absurd hk (by decide)

/-- No function is open where one is looked for. -/
theorem Coherent.eq_none_of_awaited (h : s.Coherent) (hk : Keyword.sub ∈ awaited s.phase) :
    s.enclosing? = none := by
  cases hphase : s.phase with
  | outside => exact h.outside hphase
  | _ =>
    rw [hphase] at hk
    exact absurd hk (by decide)

/-- A name that is taken is not empty. -/
theorem name_ne_empty (h : p.atNameStart rules.cyrillic = true) :
    (lossy p.word).isEmpty = false :=
  lossy_ne_empty (Place.word_ne_nil_of_atNameStart h)

/-- **Every step keeps the phase and the enclosing function in agreement.** -/
theorem Move.coherent {e : Step} (hm : Move rules line s p e) (h : s.Coherent) :
    e.state.Coherent := by
  cases hm with
  | pass mode n => exact ⟨h.outside, h.header, h.body, h.named⟩
  | semicolon => exact h.toStatement
  | comma => exact h.toList (.inl rfl)
  | @takeKeyword k n awaited found =>
    cases k with
    | var => exact h.toList (.inl rfl)
    | sub =>
      exact ⟨fun h => Phase.noConfusion h, fun _ => h.eq_none_of_awaited awaited,
        fun h => Phase.noConfusion h, h.named⟩
    | endSub => exact coherent_outside s.mode
  | takeFunction _ starts =>
    refine ⟨fun h => Phase.noConfusion h, fun h => Phase.noConfusion h, fun _ => rfl, ?_⟩
    rintro f hf rfl
    have hname := name_ne_empty starts
    rw [Option.some.inj hf] at hname
    exact Bool.noConfusion hname
  | takeVariable => exact h.toList (.inr rfl)

/-- A declaration with a name is an event if all kinds are wanted. -/
theorem declare_of_all {t : Tag} (hk : rules.kinds = .all) (h : t.name.isEmpty = false) :
    declare rules t = [.tag t] := by
  rw [declare, h, hk, KindSet.contains_all]
  rfl

/-- **The events of a step are read with the function that is open**, from the
state before it to the state behind it. -/
theorem Move.scoped {e : Step} (hm : Move rules line s p e) (h : s.Coherent)
    (hk : rules.kinds = .all) : Scoped s.enclosing? e.events e.state.enclosing? := by
  cases hm with
  | pass mode n => exact .nil _
  | semicolon => exact .changeTo _ _ _
  | comma => exact .changeTo _ _ _
  | @takeKeyword k n awaited found =>
    cases k with
    | var => exact .other rfl rfl (.changeTo _ _ _)
    | sub => exact .other rfl rfl (.changeTo _ _ _)
    | endSub =>
      obtain ⟨f, hf⟩ := h.exists_of_awaited awaited
      show Scoped s.enclosing? _ none
      rw [State.takeKeyword, hf]
      exact .endBody (.other rfl rfl (.changeTo _ _ _))
  | takeFunction phase starts =>
    show Scoped s.enclosing? (declare rules _ ++ _) (some _)
    rw [h.header phase, declare_of_all hk (name_ne_empty starts)]
    exact .function rfl rfl (.changeTo _ _ _)
  | takeVariable _ starts =>
    show Scoped s.enclosing? (declare rules _ ++ _) s.enclosing?
    rw [declare_of_all hk (name_ne_empty starts)]
    exact .var (t := ⟨_, .var, line, s.enclosing?⟩) rfl (.changeTo _ _ _)

end State

/-! ## Whole scans -/

section Scans

variable {rules : Rules} {lines : List Bytes} {n : Nat} {s : State} {p : Place} {es : List Event}

theorem Run.coherent (h : Run rules lines n s p es) : s.Coherent := by
  induction h with
  | start => exact State.coherent_outside .code
  | step _ _ ih => exact (State.move_step _ rules _ _).coherent ih
  | nextLine _ _ _ ih => exact ih

/-- **What has happened in a run** leaves open the function that the run is
in. -/
theorem Run.scoped (h : Run rules lines n s p es) (hk : rules.kinds = .all) :
    Scoped none es s.enclosing? := by
  induction h with
  | start => exact .nil none
  | step run _ ih => exact ih.append ((State.move_step _ rules _ _).scoped run.coherent hk)
  | nextLine _ _ _ ih => exact ih

theorem scoped_events (lines : List Bytes) (hk : rules.kinds = .all) :
    ∃ f?, Scoped none (events rules lines) f? := by
  obtain ⟨q, hrun⟩ := run_scan rules lines
  exact ⟨_, (hrun.scoped hk).append (.closing _ _)⟩

end Scans

/-- **Scopes are right.** At every moment of a scan the phase and the
enclosing function agree, and where all kinds are wanted, what the scan
reports shows it: functions have no scope, variables have the function whose
body they stand in, and between two functions one body ends. -/
theorem scopes_right (rules : Rules) (lines : List Bytes) :
    (∀ n s p es, Run rules lines n s p es →
      (s.phase = .outside ∨ s.phase = .beforeFunction → s.enclosing? = none) ∧
        (s.phase = .body → ∃ f, s.enclosing? = some f ∧ f ≠ "")) ∧
      ScopesRight (events { rules with kinds := .all } lines) := by
  constructor
  · intro n s p es hrun
    have h := hrun.coherent
    constructor
    · rintro (hphase | hphase)
      · exact h.outside hphase
      · exact h.header hphase
    · intro hphase
      obtain ⟨f, hf⟩ := Option.isSome_iff_exists.mp (h.body hphase)
      exact ⟨f, hf, h.named f hf⟩
  · have hall : { rules with kinds := KindSet.all }.kinds = .all := rfl
    obtain ⟨f?, h⟩ := scoped_events lines hall
    exact h.scopesRight

/-- A function with a variable, and another function behind it. -/
theorem scopes_right_two_functions :
    let f : Tag := ⟨"F", .function, 1, none⟩
    let g : Tag := ⟨"G", .function, 3, none⟩
    let since : List Event := [.change .beforeFunction .body, .keyword .var 1 14,
      .change .body .beforeVariable, .tag ⟨"x", .var, 1, some "F"⟩,
      .change .beforeVariable .behindVariable, .change .behindVariable .body,
      .keyword .endSub 2 1, .bodyEnd "F" 2, .change .body .outside,
      .keyword .sub 3 1, .change .outside .beforeFunction]
    let lines := [ofString "Function F() Var x;", ofString "EndFunction", ofString "Function G()"]
    events { ({} : Rules) with kinds := .all } lines
        = [.keyword .sub 1 1, .change .outside .beforeFunction] ++ .tag f ::
          (since ++ .tag g :: [.change .beforeFunction .body, .openBody "G"]) ∧
      (∀ e ∈ since, e.declaresFunction = false) ∧ since.countP Event.endsBody = 1 := by
  intro f g since lines
  have hevents : events { ({} : Rules) with kinds := .all } lines
      = [.keyword .sub 1 1, .change .outside .beforeFunction] ++ .tag f ::
        (since ++ .tag g :: [.change .beforeFunction .body, .openBody "G"]) := by
    decide +kernel
  have hnone : ∀ e ∈ since, e.declaresFunction = false := by decide +kernel
  exact ⟨hevents, hnone,
    (scopes_right {} lines).2.between _ f since g _ hevents rfl rfl hnone⟩

end DeclTags
