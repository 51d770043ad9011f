import DeclTags.Proofs.Log.Records
import DeclTags.Proofs.Scan.Kinds
import DeclTags.Proofs.Scan.Positions
import DeclTags.Source

/-!
# The log tells what happened

The log of a scan is a list of texts, and what they say is true of the scan.
The phases change along a path. Behind the keyword that ends bodies stands the
function whose body has ended, and it is the latest one. The tags in the log
are the tags that were found. Keywords are reported where they stand, one
behind the other. The last record says that a body is open if one is.

Two things stand between this and what is known about strides. The first is
that a log is read, so each statement about records has to be brought back to
events; `Record.eq_keyword` and its likes do that. The second is that a
function is captured also where functions are not wanted. It is then not in
the log, and its name is all the same in the record of the end of its body. So
the latest function is looked up among the events of the scan that wants every
kind. What the log shows of these are the reported ones (`reported`), and a
place in the log comes from a place among them (`exists_of_reported_eq`).
-/

namespace DeclTags

open Utf8

/-- **The log of the scan of some lines.** -/
def log (rules : Rules) (lines : List Bytes) : List Record :=
  (events rules lines).map Record.ofEvent

/-- A source that can be read to its end is logged like its lines. -/
theorem Source.log_eq_log {rules : Rules} {source : Source}
    (h : (source.scan rules).failure? = none) :
    source.log rules = DeclTags.log rules (Intake.lines { source }).1 := by
  rw [Source.log, h, DeclTags.log, events, List.map_append]
  exact congrArg (· ++ _) (List.append_nil _)

/-- **What the log shows of some events.** -/
def reported (rules : Rules) (es : List Event) : List Record :=
  (es.filter rules.reports).map Record.ofEvent

variable {rules : Rules} {lines : List Bytes}

theorem reported_append (es fs : List Event) :
    reported rules (es ++ fs) = reported rules es ++ reported rules fs := by
  rw [reported, List.filter_append, List.map_append]
  rfl

theorem reported_cons_of_tag? {e : Event} (h : e.tag? = none) (es : List Event) :
    reported rules (e :: es) = .ofEvent e :: reported rules es := by
  rw [reported, List.filter_cons_of_pos (rules.reports_of_tag? h), List.map_cons]
  rfl

/-- The log shows what is reported of all that happens. -/
theorem log_eq_reported (rules : Rules) (lines : List Bytes) :
    log rules lines = reported rules (events { rules with kinds := .all } lines) := by
  rw [log, events_eq_filter]
  rfl

/-- **A place in the log** is a place among the events, if the record there is
the record of one event only. -/
theorem exists_of_reported_eq {es : List Event} {e : Event} {xs ys : List Record}
    (honly : ∀ e' ∈ es, Record.ofEvent e' = .ofEvent e → e' = e)
    (h : reported rules es = xs ++ .ofEvent e :: ys) :
    ∃ before after, es = before ++ e :: after ∧ reported rules before = xs ∧
      reported rules after = ys := by
  obtain ⟨us, vs, hsplit, rfl, hvs⟩ := List.map_eq_append_iff.mp h
  obtain ⟨e', vs, rfl, he, rfl⟩ := List.map_eq_cons_iff.mp hvs
  obtain ⟨ls, rs, rfl, rfl, hrs⟩ := List.filter_eq_append_iff.mp hsplit
  obtain ⟨before, after, rfl, hquiet, -, rfl⟩ := List.filter_eq_cons_iff.mp hrs
  have hmem : e' ∈ ls ++ (before ++ e' :: after) :=
    List.mem_append_right _ (List.mem_append_right _ List.mem_cons_self)
  rw [honly e' hmem he]
  refine ⟨ls ++ before, after, (List.append_assoc ..).symm, ?_, rfl⟩
  rw [reported, List.filter_append, List.filter_eq_nil_iff.mpr hquiet, List.append_nil]

/-! ## All that happens -/

/-- What is not among the last elements of a list stands in front of them. -/
theorem exists_of_append_eq {α : Type} {xs zs before after : List α} {e : α} (he : e ∉ zs)
    (h : xs ++ zs = before ++ e :: after) :
    ∃ later, xs = before ++ e :: later ∧ after = later ++ zs := by
  rcases List.append_eq_append_iff.mp h with ⟨us, -, rfl⟩ | ⟨us, rfl, hafter⟩
  · exact absurd (List.mem_append_right us List.mem_cons_self) he
  · cases us with
    | nil =>
      rw [List.nil_append] at hafter
      exact absurd (hafter ▸ List.mem_cons_self) he
    | cons e' later =>
      obtain ⟨rfl, rfl⟩ := List.cons.inj hafter
      exact ⟨later, rfl, rfl⟩

/-- At the end there is nothing to say but that a body is open. -/
theorem State.eq_openBody_of_mem_closing {s : State} {e : Event} (h : e ∈ s.closing) :
    ∃ f, e = .openBody f := by
  unfold closing at h
  split at h
  · exact ⟨_, List.mem_singleton.mp h⟩
  · exact absurd h List.not_mem_nil

/-- No name in what a stride says has a mark in it. -/
theorem Outline.Stride.legible {a b : Outline} {es : List Event} (h : Stride a es b)
    (hopen : ∀ f, a.enclosing? = some f → Spelled f) : ∀ e ∈ es, e.Legible := by
  cases h with
  | quiet => exact fun _ he => absurd he List.not_mem_nil
  | endSub f => simpa [Event.Legible] using hopen f rfl
  | _ => simp [Event.Legible]

theorem Run.legible {n : Nat} {s : State} {p : Place} {es : List Event}
    (h : Run rules lines n s p es) (hk : rules.kinds = .all) : ∀ e ∈ es, e.Legible := by
  induction h with
  | start => exact fun _ he => absurd he List.not_mem_nil
  | step run _ ih =>
    intro e he
    rcases List.mem_append.mp he with he | he
    · exact ih e he
    · exact ((State.move_step _ rules _ _).stride run.coherent hk).legible run.spelled.1 e he
  | nextLine _ _ _ ih => exact ih

/-- **All that happens in a scan**: strides, and what is left to say at the
end. -/
structure History (full : List Event) (last : State) (found : List Event) : Prop where
  /-- The end comes behind the strides. -/
  eq : full = found ++ last.closing
  /-- What was found is a sequence of strides. -/
  strides : Outline.Strides {} found last.outline
  /-- The records of what was found can be told from others. -/
  legible : ∀ e ∈ found, e.Legible

theorem exists_history (rules : Rules) (lines : List Bytes) :
    ∃ last found, History (events { rules with kinds := .all } lines) last found := by
  obtain ⟨q, hrun⟩ := run_scan { rules with kinds := .all } lines
  exact ⟨_, _, rfl, hrun.strides rfl, hrun.legible rfl⟩

namespace History

variable {full found before after : List Event} {last : State}

theorem mem_cases (h : History full last found) {e : Event} (he : e ∈ full) :
    e ∈ found ∨ ∃ f, e = .openBody f := by
  rw [h.eq] at he
  exact (List.mem_append.mp he).imp_right State.eq_openBody_of_mem_closing

theorem legible_of_mem (h : History full last found) {e : Event} (he : e ∈ full) : e.Legible := by
  rcases h.mem_cases he with he | ⟨f, rfl⟩
  · exact h.legible e he
  · exact trivial

theorem scopes (h : History full last found) : Scoped none full last.enclosing? := by
  rw [h.eq]
  exact h.strides.scoped.append (.closing _ _)

/-- **What happens before the end happens in a stride.** -/
theorem cut (h : History full last found) {e : Event} (he : ∀ f, e ≠ .openBody f)
    (hfull : full = before ++ e :: after) :
    ∃ earlier pre post later m n, before = earlier ++ pre ∧ after = post ++ later ∧
      Outline.Strides {} earlier m ∧ Outline.Stride m (pre ++ e :: post) n := by
  have hclosing : e ∉ last.closing := by
    intro hmem
    obtain ⟨f, hf⟩ := State.eq_openBody_of_mem_closing hmem
    exact he f hf
  rw [h.eq] at hfull
  obtain ⟨rest, hfound, rfl⟩ := exists_of_append_eq hclosing hfull
  obtain ⟨earlier, pre, post, later, m, n, hbefore, rfl, hearlier, hstride, -⟩ :=
    h.strides.cut hfound
  exact ⟨earlier, pre, post, later ++ last.closing, m, n, hbefore, List.append_assoc .., hearlier,
    hstride⟩

/-- **The keyword that ends bodies ends the body of the latest function.** -/
theorem ends (h : History full last found) {line column : Nat}
    (hfull : full = before ++ .keyword .endSub line column :: after) :
    ∃ f since rest, Latest before f since ∧
      after = .bodyEnd f.name line :: .change .body .outside :: rest := by
  obtain ⟨earlier, pre, post, later, m, n, rfl, rfl, hearlier, hstride⟩ :=
    h.cut (fun _ => Event.noConfusion) hfull
  obtain ⟨rfl, f, hf, rfl⟩ := hstride.of_keyword
  rw [List.append_nil]
  rcases hearlier.scoped.latest_of_some hf with ⟨hnone, -⟩ | ⟨g, since, hlatest, rfl, -⟩
  · exact absurd hnone (by simp)
  · exact ⟨g, since, later, hlatest, rfl⟩

/-- **A body is left for the outside only behind the keyword that ends it.** -/
theorem leaves (h : History full last found)
    (hfull : full = before ++ .change .body .outside :: after) :
    ∃ rest f line column,
      before = rest ++ [.keyword .endSub line column, .bodyEnd f line] := by
  obtain ⟨earlier, pre, post, later, m, n, rfl, rfl, -, hstride⟩ :=
    h.cut (fun _ => Event.noConfusion) hfull
  obtain ⟨f, line, column, rfl⟩ := hstride.of_change
  exact ⟨earlier, f, line, column, rfl⟩

theorem changesOf_eq (h : History full last found) : changesOf full = changesOf found := by
  have hclosing : changesOf last.closing = [] := by
    unfold State.closing
    split <;> rfl
  rw [h.eq, changesOf, List.filterMap_append]
  exact (congrArg (changesOf found ++ ·) hclosing).trans (List.append_nil _)

/-- **The body that is open at the end** is that of the latest function, if no
body has ended since. -/
theorem enclosing_iff (h : History full last found) (f : String) :
    last.enclosing? = some f ↔
      ∃ t since, Latest full t since ∧ t.name = f ∧ ∀ e ∈ since, e.endsBody = false := by
  constructor
  · intro hf
    exact (h.scopes.latest_of_some hf).resolve_left (fun hnone => absurd hnone.1 (by simp))
  · rintro ⟨t, since, hlatest, rfl, hends⟩
    obtain ⟨before, hfull⟩ := hlatest.declared
    have hscoped := h.scopes
    rw [hfull] at hscoped
    obtain ⟨f?, -, hsince⟩ := hscoped.of_append
    exact (hsince.of_function hlatest.kind_eq).2.2.eq_of_quiet fun e he =>
      ⟨hlatest.none_since e he, hends e he⟩

end History

/-! ## Records -/

/-- The changes of phase are read off the log. -/
theorem changesOf_reported {es : List Event} (h : ∀ e ∈ es, e.Legible) :
    (reported rules es).filterMap Record.change? = changesOf es := by
  rw [reported, List.filterMap_map, List.filterMap_filter]
  refine List.filterMap_congr (fun e he => ?_)
  dsimp only [Function.comp]
  rw [Record.change?_ofEvent (h e he)]
  cases e with
  | tag t => exact ite_self _
  | _ => rfl

/-- The records of tags are read off the records of events. -/
theorem filter_isTag (es : List Event) :
    (es.map Record.ofEvent).filter Record.isTag
      = (tagsOf es).map fun t => Record.ofEvent (.tag t) := by
  induction es with
  | nil => rfl
  | cons e es ih =>
    rw [List.map_cons, List.filter_cons, Record.isTag_ofEvent, ih]
    cases e <;> rfl

/-- **The log is a run of the scan**, told in records. -/
structure FaithfulLog (rules : Rules) (lines : List Bytes) : Prop where
  /-- Each change of phase starts where the one before it ended, the first
  outside every body, and ends in a phase that may follow. -/
  path : ∃ last, Phase.Path .outside ((log rules lines).filterMap Record.change?) last
  /-- Right behind the keyword that ends bodies, the body of the latest
  function ends, and the phase changes. The function need not be in the log
  itself; it is among all that has happened up to there. -/
  ends : ∀ xs line column ys,
    log rules lines = xs ++ .ofEvent (.keyword .endSub line column) :: ys →
      ∃ before after f since rest,
        events { rules with kinds := .all } lines
          = before ++ .keyword .endSub line column :: after ∧
        xs = reported rules before ∧ Latest before f since ∧
        ys = .ofEvent (.bodyEnd f.name line) :: .ofEvent (.change .body .outside) :: rest
  /-- A body is left for the outside nowhere else. -/
  leaves : ∀ xs ys, log rules lines = xs ++ .ofEvent (.change .body .outside) :: ys →
    ∃ rest f line column,
      xs = rest ++ [.ofEvent (.keyword .endSub line column), .ofEvent (.bodyEnd f line)]
  /-- The tags in the log are the tags that were found, in order. -/
  tags : (log rules lines).filter Record.isTag
    = (tags rules lines).map fun t => .ofEvent (.tag t)
  /-- Keywords are reported in the order in which they stand, each at another
  place. -/
  ascending : (log rules lines).Pairwise fun r r' =>
    ∀ k line column k' line' column', r = .ofEvent (.keyword k line column) →
      r' = .ofEvent (.keyword k' line' column') → Earlier (line, column) (line', column')
  /-- The last record says that a body is open if the body of the latest
  function has not ended. -/
  openBody : ∀ f, (log rules lines).getLast? = some (.ofEvent (.openBody f)) ↔
    ∃ t since, Latest (events { rules with kinds := .all } lines) t since ∧ t.name = f ∧
      ∀ e ∈ since, e.endsBody = false

/-- The last record says which body is open at the end. -/
theorem History.getLast?_log {last : State} {found : List Event}
    (h : History (events { rules with kinds := .all } lines) last found) (f : String) :
    (log rules lines).getLast? = some (.ofEvent (.openBody f)) ↔ last.enclosing? = some f := by
  rw [log_eq_reported, h.eq, reported_append, State.closing]
  cases last.enclosing? with
  | some g =>
    dsimp only
    rw [reported_cons_of_tag? rfl, show reported rules [] = [] from rfl, List.getLast?_append,
      List.getLast?_singleton, Option.some_or, Option.some_inj, Option.some_inj]
    constructor
    · exact fun hr => Event.openBody.inj (Record.eq_openBody hr)
    · rintro rfl
      rfl
  | none =>
    dsimp only
    rw [show reported rules [] = [] from rfl, List.append_nil]
    refine iff_of_false (fun hr => ?_) (by simp)
    obtain ⟨e, he, hr⟩ := List.mem_map.mp (List.mem_of_getLast? hr)
    rw [Record.eq_openBody hr] at he
    exact h.strides.openBody_not_mem (List.mem_of_mem_filter he)

/-- **The log is faithful**, whatever the lines hold and whatever the scan pays
attention to. -/
theorem log_faithful (rules : Rules) (lines : List Bytes) : FaithfulLog rules lines := by
  obtain ⟨last, found, h⟩ := exists_history rules lines
  have hlegible {e : Event} (he : e ∈ events { rules with kinds := .all } lines) : e.Legible :=
    h.legible_of_mem he
  constructor
  case path =>
    refine ⟨last.phase, ?_⟩
    rw [log_eq_reported, changesOf_reported (fun e he => hlegible he), h.changesOf_eq]
    exact h.strides.path
  case ends =>
    intro xs line column ys hlog
    rw [log_eq_reported] at hlog
    obtain ⟨before, after, hfull, rfl, rfl⟩ :=
      exists_of_reported_eq (fun e he => Record.eq_keyword (hlegible he)) hlog
    obtain ⟨f, since, rest, hlatest, rfl⟩ := h.ends hfull
    refine ⟨before, _, f, since, reported rules rest, hfull, rfl, hlatest, ?_⟩
    rw [reported_cons_of_tag? rfl, reported_cons_of_tag? rfl]
  case leaves =>
    intro xs ys hlog
    rw [log_eq_reported] at hlog
    obtain ⟨before, after, hfull, rfl, rfl⟩ :=
      exists_of_reported_eq (fun e he => Record.eq_change (hlegible he)) hlog
    obtain ⟨rest, f, line, column, rfl⟩ := h.leaves hfull
    exact ⟨reported rules rest, f, line, column, reported_append _ _⟩
  case tags => exact filter_isTag _
  case ascending =>
    have hpairs := List.pairwise_filterMap.mp (positions_ascending rules lines)
    refine List.pairwise_map.mpr (hpairs.imp_of_mem ?_)
    intro e e' he he' hearlier k line column k' line' column' hr hr'
    rw [events_eq_filter] at he he'
    have hk := Record.eq_keyword (hlegible (List.mem_of_mem_filter he)) hr
    have hk' := Record.eq_keyword (hlegible (List.mem_of_mem_filter he')) hr'
    subst hk hk'
    exact hearlier _ rfl _ rfl
  case openBody => exact fun f => (h.getLast?_log f).trans (h.enclosing_iff f)

/-- Functions are not wanted here, and the log names them all the same. -/
example : (log { kinds := .none } [Utf8.ofString "Function F()", Utf8.ofString "EndFunction",
      Utf8.ofString "Procedure G"]).map Record.text
    = ["Sub at 1:1", "Default -> SubName", "SubName -> InFunctionBody", "EndSub at 2:1",
      "End of F at line 2", "InFunctionBody -> Default", "Sub at 3:1", "Default -> SubName",
      "SubName -> InFunctionBody", "End of input inside body of G"] := by decide +kernel

end DeclTags
