import DeclTags.Proofs.Scan.Leads

/-!
# Kinds that are not wanted

A scan may be asked for tags of some kinds only. It goes through a source in
the same way all the same: which kinds are wanted is looked at where a
declaration is reported, and nowhere else. So the states are those of a scan
that wants every kind, and the events are the ones among its events that are
reported (`events_eq_filter`). What a scan knows and does not report – the
functions, where only variables are wanted – can therefore be read off the
events of the scan that wants every kind.

The proof follows the scan from the inside out: the events of a step, of the
rest of a line, of the lines, of the source.
-/

namespace DeclTags

/-- **Is an event reported?** A tag is if its kind is wanted, and everything
else is in any case. -/
def Rules.reports (rules : Rules) : Event → Bool
  | .tag t => rules.wants t
  | _ => true

theorem Rules.reports_of_tag? (rules : Rules) {e : Event} (h : e.tag? = none) :
    rules.reports e = true := by
  cases e with
  | tag t => exact absurd h (by simp [Event.tag?])
  | _ => rfl

/-- Where there are no tags, everything is reported. -/
theorem Rules.filter_reports (rules : Rules) {es : List Event} (h : ∀ e ∈ es, e.tag? = none) :
    es.filter rules.reports = es :=
  List.filter_eq_self.mpr (fun e he => rules.reports_of_tag? (h e he))

/-- The tags that are reported are the wanted ones. -/
theorem tagsOf_filter_reports (rules : Rules) (es : List Event) :
    tagsOf (es.filter rules.reports) = (tagsOf es).filter rules.wants := by
  induction es with
  | nil => rfl
  | cons e es ih =>
    cases e with
    | tag t =>
      have htags (es : List Event) : tagsOf (.tag t :: es) = t :: tagsOf es := rfl
      rw [List.filter_cons, htags, List.filter_cons, ← ih]
      show tagsOf (if rules.wants t = true then _ else _) = _
      split
      · exact htags _
      · rfl
    | _ => exact ih

/-- A step with those of its events that are reported. -/
def Step.reported (rules : Rules) (e : Step) : Step :=
  ⟨e.state, e.place, e.events.filter rules.reports⟩

namespace State

variable {rules : Rules} {line : Nat} {s : State} {p : Place}

theorem tag?_of_mem_changeTo {phase : Phase} {e : Event} (h : e ∈ s.changeTo phase) :
    e.tag? = none := by
  unfold changeTo at h
  split at h
  · exact absurd h List.not_mem_nil
  · rw [List.mem_singleton.mp h]
    rfl

theorem tag?_of_mem_closing {e : Event} (h : e ∈ s.closing) : e.tag? = none := by
  unfold closing at h
  split at h
  · rw [List.mem_singleton.mp h]
    rfl
  · exact absurd h List.not_mem_nil

/-- **A declaration is reported** if its kind is wanted. -/
theorem declare_eq_filter (rules : Rules) (t : Tag) :
    declare rules t = (declare { rules with kinds := .all } t).filter rules.reports := by
  unfold declare
  rw [KindSet.contains_all]
  cases t.name.isEmpty
  · cases hk : rules.kinds.contains t.kind <;> simp [Rules.reports, Rules.wants, hk]
  · rfl

theorem reported_goTo (phase : Phase) (q : Place) (es : List Event) :
    (s.goTo phase q es).reported rules = s.goTo phase q (es.filter rules.reports) := by
  unfold goTo Step.reported
  dsimp only
  rw [List.filter_append, rules.filter_reports (fun _ => tag?_of_mem_changeTo)]

theorem reported_takeKeyword (k : Keyword) (n : Nat) :
    (s.takeKeyword line p k n).reported rules = s.takeKeyword line p k n := by
  cases k with
  | var | sub => exact reported_goTo _ _ _
  | endSub =>
    unfold takeKeyword
    dsimp only
    rw [reported_goTo]
    cases s.enclosing? <;> rfl

theorem reported_takeFunction :
    (s.takeFunction { rules with kinds := .all } line p).reported rules
      = s.takeFunction rules line p := by
  rw [takeFunction, reported_goTo, ← declare_eq_filter]
  rfl

theorem reported_takeVariable :
    (s.takeVariable { rules with kinds := .all } line p).reported rules
      = s.takeVariable rules line p := by
  rw [takeVariable, reported_goTo, ← declare_eq_filter]
  rfl

theorem reported_codeStep :
    (s.codeStep { rules with kinds := .all } line p).reported rules
      = s.codeStep rules line p := by
  unfold codeStep
  split
  case h_1 | h_2 =>
    split
    · exact reported_takeKeyword _ _
    · rfl
  case h_3 =>
    dsimp only
    split
    · exact reported_takeFunction
    · rfl
  case h_4 =>
    dsimp only
    split
    · exact reported_takeVariable
    · rfl
  case h_5 =>
    split
    · exact reported_goTo _ _ _
    · rfl

/-- **A step does the same whatever is wanted**, and reports what is. -/
theorem reported_step (s : State) (rules : Rules) (line : Nat) (p : Place) :
    (s.step { rules with kinds := .all } line p).reported rules = s.step rules line p := by
  unfold step
  split
  · rfl
  · rfl
  · dsimp only
    repeat' split
    case isFalse.isFalse.isFalse.isTrue => exact reported_goTo _ _ _
    case isFalse.isFalse.isFalse.isFalse.isFalse => exact reported_codeStep
    all_goals rfl

end State

/-! ## Lines and sources -/

/-- The rest of a line is scanned alike whatever is wanted. -/
theorem scanFrom_eq_filter (rules : Rules) (line : Nat) (s : State) (p : Place) :
    scanFrom rules line s p
      = ((scanFrom { rules with kinds := .all } line s p).1,
        (scanFrom { rules with kinds := .all } line s p).2.filter rules.reports) := by
  induction hn : p.after.length using Nat.strongRecOn generalizing s p with
  | _ m ih =>
    subst hn
    by_cases hp : p.after = []
    · rw [scanFrom_of_after_eq_nil hp, scanFrom_of_after_eq_nil hp]
      rfl
    · have hlt := State.length_after_step_lt s { rules with kinds := .all } line hp
      rw [scanFrom_of_after_ne_nil hp, scanFrom_of_after_ne_nil hp, ← State.reported_step]
      dsimp only [Step.reported]
      rw [ih _ hlt _ _ rfl, List.filter_append]

/-- Lines are scanned alike whatever is wanted. -/
theorem scanLines_eq_filter (rules : Rules) (n : Nat) (s : State) (lines : List Bytes) :
    scanLines rules n s lines
      = ((scanLines { rules with kinds := .all } n s lines).1,
        (scanLines { rules with kinds := .all } n s lines).2.map (·.filter rules.reports)) := by
  induction lines generalizing n s with
  | nil => rfl
  | cons l lines ih =>
    simp only [scanLines, scanLine, List.map_cons]
    rw [scanFrom_eq_filter rules]
    dsimp only
    rw [ih]

/-- **What a scan reports** is what a scan for every kind finds, without the
tags of kinds that are not wanted. -/
theorem events_eq_filter (rules : Rules) (lines : List Bytes) :
    events rules lines = (events { rules with kinds := .all } lines).filter rules.reports := by
  unfold events scan
  rw [scanLines_eq_filter rules]
  dsimp only
  rw [List.filter_append, List.filter_flatten,
    rules.filter_reports (fun _ => State.tag?_of_mem_closing)]

/-- **The tags of a source** are those of all its tags that are wanted. -/
theorem tags_eq_filter (rules : Rules) (lines : List Bytes) :
    tags rules lines = (tags { rules with kinds := .all } lines).filter rules.wants := by
  rw [tags, events_eq_filter, tagsOf_filter_reports]
  rfl

end DeclTags
