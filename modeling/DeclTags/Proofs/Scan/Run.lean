import DeclTags.Proofs.Scan.Leads

/-!
# Runs of a scan

A scan is a function of the lines, and a function says nothing about what
lies between its first byte and its last. A **run** does: it is the scan
stopped at some step, with the number of the line it is on, the state, the
place, and all that has happened so far. The scan starts before the first
line, on a line of number 0 that is empty; from there it steps through a line
to its end, and goes on to the next one.

What holds at every moment of a scan is proved by induction on a run: it
holds at the start, a step keeps it, and a new line keeps it. A step, in
turn, is one of six moves (`State.Move`), and a proof about steps has a case
for each. Where a run ends, the scan ends (`run_scan`), so what holds of all
runs holds of what the scan found.
-/

namespace DeclTags

open Utf8

/-! ## What a step may do -/

namespace State

/-- **A step is one of six moves.** But for the first they start behind the
blanks. -/
inductive Move (rules : Rules) (line : Nat) (s : State) (p : Place) : Step → Prop
  /-- Bytes that say nothing are left behind. A comment or a string may begin
  or end there. -/
  | pass (mode : Mode) (n : Nat) : Move rules line s p ⟨{ s with mode := mode }, p.forward n, []⟩
  /-- A statement ends. -/
  | semicolon :
      Move rules line s p (s.goTo s.statementPhase (p.skipBlanks.forward 1) [])
  /-- A variable ends, and another follows. -/
  | comma (phase : s.phase = .behindVariable) :
      Move rules line s p (s.goTo .beforeVariable (p.skipBlanks.forward 1) [])
  /-- A keyword of the phase is taken. -/
  | takeKeyword {k : Keyword} {n : Nat} (awaited : k ∈ awaited s.phase)
      (found : k.at? p.skipBlanks = some n) :
      Move rules line s p (s.takeKeyword line p.skipBlanks k n)
  /-- The name of a function is taken. -/
  | takeFunction (phase : s.phase = .beforeFunction)
      (starts : p.skipBlanks.atNameStart rules.cyrillic = true) :
      Move rules line s p (s.takeFunction rules line p.skipBlanks)
  /-- The name of a variable is taken. -/
  | takeVariable (phase : s.phase = .beforeVariable)
      (starts : p.skipBlanks.atNameStart rules.cyrillic = true) :
      Move rules line s p (s.takeVariable rules line p.skipBlanks)

variable {rules : Rules} {line : Nat} {s : State} {p : Place}

/-- A keyword that is found is one of those looked for. -/
theorem mem_of_keywordAt? {keywords : List Keyword} {k : Keyword} {n : Nat}
    (h : keywordAt? p keywords = some (k, n)) : k ∈ keywords ∧ k.at? p = some n := by
  obtain ⟨j, hj, he⟩ := List.exists_of_findSome?_eq_some h
  obtain ⟨m, hm, he⟩ := Option.map_eq_some_iff.mp he
  obtain ⟨rfl, rfl⟩ := Prod.mk.inj he
  exact ⟨hj, hm⟩

namespace Move

/-- Behind the blanks, bytes that say nothing are left behind as well. -/
theorem pass_skipBlanks (mode : Mode) (n : Nat) :
    Move rules line s p ⟨{ s with mode := mode }, p.skipBlanks.forward n, []⟩ := by
  rw [Place.skipBlanks, Place.forward_forward]
  exact pass mode _

theorem of_searchStep (b : UInt8) (more : Bytes) : Move rules line s p (s.searchStep b more p) := by
  unfold searchStep Place.skipPast
  cases Place.occurrence? b more p.after with
  | some n => exact pass .code _
  | none => exact pass s.mode _

theorem of_codeStep : Move rules line s p (s.codeStep rules line p.skipBlanks) := by
  have one : Move rules line s p ⟨s, p.skipBlanks.forward 1, []⟩ := pass_skipBlanks s.mode 1
  unfold codeStep
  split
  case h_1 | h_2 =>
    split
    · rename_i k n found
      obtain ⟨awaited, found⟩ := mem_of_keywordAt? found
      exact takeKeyword awaited found
    · exact one
  case h_3 hphase =>
    split
    · exact takeFunction hphase ‹_›
    · exact one
  case h_4 hphase =>
    split
    · exact takeVariable hphase ‹_›
    · exact one
  case h_5 hphase =>
    split
    · exact comma hphase
    · exact one

/-- A move stays in the line. -/
theorem line_eq {e : Step} (h : Move rules line s p e) : e.place.line = p.line := by
  have blanks : p.skipBlanks.line = p.line := Place.line_forward _ p
  cases h with
  | pass mode n => exact Place.line_forward n p
  | semicolon | comma => exact (Place.line_forward 1 _).trans blanks
  | takeKeyword =>
    rw [place_takeKeyword]
    exact (Place.line_forward _ _).trans blanks
  | takeFunction | takeVariable => exact (Place.line_forward _ _).trans blanks

end Move

/-- **Every step is a move.** -/
theorem move_step (s : State) (rules : Rules) (line : Nat) (p : Place) :
    Move rules line s p (s.step rules line p) := by
  unfold step
  split
  · exact Move.of_searchStep _ _
  · exact Move.of_searchStep _ _
  · dsimp only
    split
    · exact Move.pass_skipBlanks s.mode _
    · split
      · exact Move.pass_skipBlanks .comment 2
      · split
        · exact Move.pass_skipBlanks .string 1
        · split
          · exact Move.semicolon
          · split
            · exact Move.pass s.mode _
            · exact Move.of_codeStep

end State

/-! ## Runs -/

/-- The line of a source with a given number. Lines are numbered from 1; the
line of number 0 is the empty one before them. -/
def lineOf (lines : List Bytes) (n : Nat) : Bytes := ([] :: lines).getD n []

/-- **A scan stopped at some step**: on a line, in a state, at a place, with
what has happened up to there. -/
inductive Run (rules : Rules) (lines : List Bytes) : Nat → State → Place → List Event → Prop
  /-- Nothing has been read. -/
  | start : Run rules lines 0 {} (Place.ofBytes []) []
  /-- The scan makes a step. -/
  | step {n : Nat} {s : State} {p : Place} {es : List Event} (run : Run rules lines n s p es)
      (left : p.after ≠ []) :
      Run rules lines n (s.step rules n p).state (s.step rules n p).place
        (es ++ (s.step rules n p).events)
  /-- The line is used up, and another follows. -/
  | nextLine {n : Nat} {s : State} {p : Place} {es : List Event} {line : Bytes}
      (run : Run rules lines n s p es) (used : p.after = []) (next : lines[n]? = some line) :
      Run rules lines (n + 1) s (Place.start line) es

variable {rules : Rules} {lines : List Bytes}

/-- A run goes on to the end of the line, and there it is where the scan of
the line is. -/
theorem Run.scanFrom {n : Nat} {s : State} {p : Place} {es : List Event}
    (h : Run rules lines n s p es) :
    ∃ q, q.after = [] ∧
      Run rules lines n (scanFrom rules n s p).1 q (es ++ (scanFrom rules n s p).2) := by
  induction hn : p.after.length using Nat.strongRecOn generalizing s p es with
  | _ m ih =>
    subst hn
    by_cases hp : p.after = []
    · refine ⟨p, hp, ?_⟩
      rw [scanFrom_of_after_eq_nil hp, List.append_nil]
      exact h
    · obtain ⟨q, hq, hrun⟩ := ih _ (State.length_after_step_lt s rules n hp) (h.step hp) rfl
      refine ⟨q, hq, ?_⟩
      rw [scanFrom_of_after_ne_nil hp, ← List.append_assoc]
      exact hrun

/-- A run goes on to the end of the source, and there it is where the scan
of the lines left is. -/
theorem Run.scanLines {n : Nat} {s : State} {p : Place} {es : List Event} {rest : List Bytes}
    (h : Run rules lines n s p es) (hp : p.after = []) (hrest : lines.drop n = rest) :
    ∃ q, Run rules lines (n + rest.length) (scanLines rules (n + 1) s rest).1 q
      (es ++ (scanLines rules (n + 1) s rest).2.flatten) := by
  induction rest generalizing n s p es with
  | nil =>
    refine ⟨p, ?_⟩
    rw [DeclTags.scanLines, List.flatten_nil, List.append_nil]
    exact h
  | cons line rest ih =>
    have hnext : lines[n]? = some line := by
      rw [← List.head?_drop, hrest]
      rfl
    have hdrop : lines.drop (n + 1) = rest := by
      rw [← List.drop_drop, hrest]
      rfl
    obtain ⟨q, hq, hline⟩ := (h.nextLine hp hnext).scanFrom
    obtain ⟨r, hrun⟩ := ih hline hq hdrop
    refine ⟨r, ?_⟩
    rw [DeclTags.scanLines, List.length_cons, Nat.add_comm rest.length, ← Nat.add_assoc]
    dsimp only
    rw [List.flatten_cons, ← List.append_assoc]
    exact hrun

/-- **Where a run ends, the scan ends**, and what has happened is what the
scan found. -/
theorem run_scan (rules : Rules) (lines : List Bytes) :
    ∃ q, Run rules lines lines.length (scan rules lines).1 q (scan rules lines).2.flatten := by
  have hstart : Run rules lines 0 {} (Place.ofBytes []) [] := .start
  obtain ⟨q, h⟩ := hstart.scanLines rfl List.drop_zero
  rw [Nat.zero_add, List.nil_append] at h
  exact ⟨q, h⟩

namespace Run

variable {n : Nat} {s : State} {p : Place} {es : List Event}

/-- A run does not go past the last line. -/
theorem le_length (h : Run rules lines n s p es) : n ≤ lines.length := by
  induction h with
  | start => exact Nat.zero_le _
  | step _ _ ih => exact ih
  | nextLine _ _ next _ => exact (List.getElem?_eq_some_iff.mp next).1

/-- A run is on the line whose number it has. -/
theorem line_eq (h : Run rules lines n s p es) : p.line = cut (lineOf lines n) := by
  induction h with
  | start => rfl
  | step run _ ih => rw [(State.move_step _ rules _ _).line_eq, ih]
  | nextLine _ _ next _ =>
    rw [lineOf, List.getD_cons_succ, List.getD_eq_getElem?_getD, next]
    rfl

/-- Where something is left to read, the run is on a line of the source. -/
theorem pos_of_after_ne_nil (h : Run rules lines n s p es) (hp : p.after ≠ []) : 0 < n := by
  refine Nat.pos_of_ne_zero (fun hn => hp ?_)
  subst hn
  exact (List.append_eq_nil_iff.mp h.line_eq).2

end Run

end DeclTags
