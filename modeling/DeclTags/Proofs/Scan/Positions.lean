import DeclTags.Proofs.Occurrence

/-!
# Where keywords stand

A scan takes a keyword where it is, says so, and goes on behind it. So each
keyword is reported at a later place of the source than the one before: on a
later line, or on the same line and further to the right.

The proof keeps, beside the positions of a run, that all of them have been
passed. A keyword is longer than nothing, so a position that is reported is
passed by the step that reports it.
-/

namespace DeclTags

/-- The line and the column of a keyword that is taken. -/
def Event.position? : Event → Option (Nat × Nat)
  | keyword _ line column => some (line, column)
  | _ => none

/-- **The positions of keywords** among some events, in order. -/
def positionsOf (es : List Event) : List (Nat × Nat) := es.filterMap Event.position?

/-- One position comes before another in the source. -/
def Earlier (a b : Nat × Nat) : Prop := a.1 < b.1 ∨ (a.1 = b.1 ∧ a.2 < b.2)

theorem positionsOf_append (es fs : List Event) :
    positionsOf (es ++ fs) = positionsOf es ++ positionsOf fs := List.filterMap_append

/-- **Positions follow one another**, and all of them have been passed at an
offset of a line. Columns start at 1. -/
structure Ascending (line offset : Nat) (positions : List (Nat × Nat)) : Prop where
  /-- Each comes before all that follow. -/
  pairwise : positions.Pairwise Earlier
  /-- Each has been passed. -/
  passed : ∀ a ∈ positions, Earlier a (line, offset + 1)

namespace Ascending

variable {line m n column : Nat} {positions : List (Nat × Nat)}

theorem mono (h : Ascending line m positions) (hmn : m ≤ n) : Ascending line n positions := by
  refine ⟨h.pairwise, fun a ha => ?_⟩
  rcases h.passed a ha with hlt | ⟨heq, hlt⟩
  · exact .inl hlt
  · exact .inr ⟨heq, Nat.lt_of_lt_of_le hlt (Nat.succ_le_succ hmn)⟩

theorem nextLine (h : Ascending line m positions) : Ascending (line + 1) 0 positions := by
  refine ⟨h.pairwise, fun a ha => .inl ?_⟩
  rcases h.passed a ha with hlt | ⟨heq, -⟩
  · exact Nat.lt_succ_of_lt hlt
  · exact heq ▸ Nat.lt_succ_self _

/-- One more position, which is passed at once. -/
theorem snoc (h : Ascending line m positions) (hm : m < column) (hn : column ≤ n) :
    Ascending line n (positions ++ [(line, column)]) := by
  have hbefore : ∀ a ∈ positions, Earlier a (line, column) := by
    intro a ha
    rcases h.passed a ha with hlt | ⟨heq, hlt⟩
    · exact .inl hlt
    · exact .inr ⟨heq, Nat.lt_of_lt_of_le hlt hm⟩
  constructor
  · refine List.pairwise_append.mpr ⟨h.pairwise, List.pairwise_singleton _ _, fun a ha b hb => ?_⟩
    rw [List.mem_singleton.mp hb]
    exact hbefore a ha
  · intro a ha
    rcases List.mem_append.mp ha with ha | ha
    · exact (h.mono (Nat.le_trans (Nat.le_of_lt hm) hn)).passed a ha
    · rw [List.mem_singleton.mp ha]
      exact .inr ⟨rfl, Nat.lt_succ_of_le hn⟩

end Ascending

namespace State

variable {rules : Rules} {line : Nat} {s : State} {p : Place}

theorem positionsOf_changeTo (phase : Phase) : positionsOf (s.changeTo phase) = [] := by
  unfold changeTo
  split <;> rfl

theorem positionsOf_declare (t : Tag) : positionsOf (declare rules t) = [] := by
  unfold declare
  split <;> rfl

theorem positionsOf_takeKeyword (k : Keyword) (n : Nat) :
    positionsOf (s.takeKeyword line p k n).events = [(line, p.offset + 1)] := by
  have quiet (t : State) (phase : Phase) (es : List Event) (h : positionsOf es = []) :
      positionsOf (.keyword k line (p.offset + 1) :: es ++ t.changeTo phase)
        = [(line, p.offset + 1)] := by
    rw [positionsOf_append, positionsOf_changeTo, List.append_nil]
    exact congrArg ((line, p.offset + 1) :: ·) h
  cases k with
  | var | sub => exact quiet _ _ [] rfl
  | endSub =>
    refine quiet _ _ _ ?_
    cases s.enclosing? <;> rfl

/-- **A step passes what it reports**: no keyword, or one that stands between
the place it started from and the place it ends at. -/
theorem Move.positions {e : Step} (h : Move rules line s p e) :
    p.offset ≤ e.place.offset ∧ (positionsOf e.events = [] ∨
      ∃ column, positionsOf e.events = [(line, column)] ∧
        p.offset < column ∧ column ≤ e.place.offset) := by
  have hblanks : p.offset ≤ p.skipBlanks.offset := Place.offset_le_forward _ p
  have behind (n : Nat) : p.offset ≤ (p.skipBlanks.forward n).offset :=
    Nat.le_trans hblanks (Place.offset_le_forward n _)
  cases h with
  | pass mode n => exact ⟨Place.offset_le_forward n p, .inl rfl⟩
  | semicolon | comma => exact ⟨behind 1, .inl (positionsOf_changeTo _)⟩
  | @takeKeyword k n _ found =>
    rw [positionsOf_takeKeyword, place_takeKeyword]
    obtain ⟨hpos, hle⟩ := Keyword.at?_pos found
    refine ⟨behind n, .inr ⟨_, rfl, Nat.lt_succ_of_le hblanks, ?_⟩⟩
    rw [Place.offset_forward, Nat.min_eq_left hle]
    exact Nat.add_le_add_left hpos _
  | takeFunction | takeVariable =>
    refine ⟨behind _, .inl ?_⟩
    exact (positionsOf_append _ _).trans
      (by rw [positionsOf_declare, positionsOf_changeTo, List.append_nil])

end State

variable {rules : Rules} {lines : List Bytes}

theorem Run.ascending {n : Nat} {s : State} {p : Place} {es : List Event}
    (h : Run rules lines n s p es) : Ascending n p.offset (positionsOf es) := by
  induction h with
  | start => exact ⟨.nil, fun _ ha => absurd ha List.not_mem_nil⟩
  | @step n s p es _ _ ih =>
    rw [positionsOf_append]
    rcases (State.move_step s rules n p).positions with ⟨honward, hnone | ⟨column, hone, hm, hn⟩⟩
    · rw [hnone, List.append_nil]
      exact ih.mono honward
    · rw [hone]
      exact ih.snoc hm hn
  | nextLine _ _ _ ih => exact ih.nextLine

/-- **Keywords are reported in the order of the source**, and none of them
twice. -/
theorem positions_ascending (rules : Rules) (lines : List Bytes) :
    (positionsOf (events rules lines)).Pairwise Earlier := by
  obtain ⟨q, hrun⟩ := run_scan rules lines
  have hclosing (s : State) : positionsOf s.closing = [] := by
    unfold State.closing
    split <;> rfl
  rw [events, positionsOf_append, hclosing, List.append_nil]
  exact hrun.ascending.pairwise

end DeclTags
