import DeclTags.Proofs.Place.Slices
import DeclTags.Proofs.Scan.Run

/-!
# Progress of a scan

A scan of a line is a loop, and nothing in the loop counts. That it ends, and
that it ends at the end of the line, is the doing of its steps. Each of them
goes on to a place ahead in the same line (`Place.Ahead`): a step over a
comment or a string because a search passes what it finds, a step over a
keyword because no spelling is empty, and a step over a name because a word
carries on wherever a name may start. So the loop makes no more steps than
there are bytes left (`scanWithin_eq`), whatever the bytes are and whatever is
known about what came before.

Two things that a scan does by way of precaution are never needed then. It
declares nothing without a name, and it meets no name that is empty. And a
move stops at the end of the line, but no blank and no word goes beyond it
(`Place.offset_skipBlanks`, `Place.offset_skipWord`). For the same reason,
where bytes are cut out of the line, the line has them (`Offset.answered`).
-/

namespace DeclTags

open Utf8

/-- **A place ahead of another**, in the same line. -/
structure Place.Ahead (p q : Place) : Prop where
  /-- It is in the same line. -/
  line_eq : q.line = p.line
  /-- More has been read there. -/
  offset_lt : p.offset < q.offset
  /-- No more than the line has been read there. -/
  offset_le : q.offset ≤ p.line.length

/-- A place of the same line with less left to read is ahead. -/
theorem Place.Ahead.of_length {p q : Place} (hline : q.line = p.line)
    (h : q.after.length < p.after.length) : p.Ahead q := by
  have hlength := q.length_line
  rw [hline, p.length_line] at hlength
  refine ⟨hline, by omega, ?_⟩
  rw [← hline]
  exact q.offset_le_length

namespace State

variable {rules : Rules} {line : Nat} {s : State} {p : Place}

/-- A step over code stays in the line. -/
theorem line_codeStep (s : State) (rules : Rules) (line : Nat) (p : Place) :
    (s.codeStep rules line p).place.line = p.line := by
  unfold codeStep
  split
  case h_1 | h_2 =>
    split
    · rw [place_takeKeyword]
      exact Place.line_forward _ p
    · exact Place.line_forward 1 p
  case h_3 | h_4 | h_5 => split <;> exact Place.line_forward _ p

theorem ahead_codeStep (s : State) (rules : Rules) (line : Nat) (h : p.after ≠ []) :
    p.Ahead (s.codeStep rules line p).place :=
  .of_length (line_codeStep s rules line p) (length_after_codeStep_lt s rules line h)

/-- **Every step goes ahead.** -/
theorem ahead_step (s : State) (rules : Rules) (line : Nat) (h : p.after ≠ []) :
    p.Ahead (s.step rules line p).place :=
  .of_length (move_step s rules line p).line_eq (length_after_step_lt s rules line h)

/-! ## Names -/

/-- The event of a declaration if its kind is wanted, whether it has a name or
not. -/
def declareAny (rules : Rules) (t : Tag) : List Event :=
  if rules.kinds.contains t.kind then [.tag t] else []

theorem declare_eq_declareAny {t : Tag} (h : t.name.isEmpty = false) :
    declare rules t = declareAny rules t := by
  rw [declare, h, Bool.false_or, declareAny]
  cases rules.kinds.contains t.kind <;> rfl

/-- **A function has a name.** -/
theorem events_codeStep_function (phase : s.phase = .beforeFunction)
    (starts : p.atNameStart rules.cyrillic = true) : (s.codeStep rules line p).events
      = declareAny rules ⟨lossy p.word, .function, line, none⟩
        ++ [.change .beforeFunction .body] := by
  have hname := lossy_ne_empty (Place.word_ne_nil_of_atNameStart starts)
  unfold codeStep
  rw [phase]
  dsimp only
  rw [if_pos starts, takeFunction, goTo, ← declare_eq_declareAny hname, changeTo]
  dsimp only
  rw [phase]
  rfl

/-- **A variable has a name.** -/
theorem events_codeStep_variable (phase : s.phase = .beforeVariable)
    (starts : p.atNameStart rules.cyrillic = true) : (s.codeStep rules line p).events
      = declareAny rules ⟨lossy p.word, .var, line, s.enclosing?⟩
        ++ [.change .beforeVariable .behindVariable] := by
  have hname := lossy_ne_empty (Place.word_ne_nil_of_atNameStart starts)
  unfold codeStep
  rw [phase]
  dsimp only
  rw [if_pos starts, takeVariable, goTo, ← declare_eq_declareAny hname, changeTo, phase]
  rfl

end State

/-! ## The loop -/

/-- **The scan of a line within some number of steps**, or nothing if the line
is not used up by then. -/
def scanWithin (rules : Rules) (line : Nat) : Nat → State → Place → Option (State × List Event)
  | 0, s, p => if p.after = [] then some (s, []) else none
  | n + 1, s, p =>
    if p.after = [] then some (s, [])
    else
      let next := s.step rules line p
      (scanWithin rules line n next.state next.place).map fun rest =>
        (rest.1, next.events ++ rest.2)

variable {rules : Rules} {line n : Nat} {s : State} {p : Place}

/-- **As many steps are enough as there are bytes left.** -/
theorem scanWithin_eq (h : p.after.length ≤ n) :
    scanWithin rules line n s p = some (scanFrom rules line s p) := by
  induction n generalizing s p with
  | zero =>
    have hp : p.after = [] := List.eq_nil_of_length_eq_zero (Nat.le_zero.mp h)
    rw [scanWithin, if_pos hp, scanFrom_of_after_eq_nil hp]
  | succ n ih =>
    rw [scanWithin]
    by_cases hp : p.after = []
    · rw [if_pos hp, scanFrom_of_after_eq_nil hp]
    · have hlt := State.length_after_step_lt s rules line hp
      rw [if_neg hp, scanFrom_of_after_ne_nil hp]
      dsimp only
      rw [ih (Nat.le_of_lt_succ (Nat.lt_of_lt_of_le hlt h)), Option.map_some]

/-- The scan of a line makes no more steps than the line has bytes. -/
theorem scanWithin_start (rules : Rules) (line : Nat) (s : State) (bytes : Bytes) :
    scanWithin rules line bytes.length s (Place.start bytes)
      = some (scanLine rules line s bytes) :=
  scanWithin_eq (List.takeWhile_sublist _).length_le

/-- **A scan makes progress and stays in its line**, from any place where
something is left to read, in any state. One step of the loop goes ahead, and
so does a step over code by itself. Where a name may start, the word is not
empty, and what is declared there is declared without asking for a name. The
loop makes no more steps than there are bytes left, on any line no more than
it has bytes. And at no place of any line does a blank or a word go beyond the
end, or is there a cut to refuse. -/
theorem scan_goes_ahead (rules : Rules) (line : Nat) (s : State) (p : Place)
    (left : p.offset < p.line.length) :
    p.Ahead (s.step rules line p).place ∧
    p.Ahead (s.codeStep rules line p).place ∧
    (p.atNameStart rules.cyrillic = true → p.word ≠ [] ∧
      (s.phase = .beforeFunction → (s.codeStep rules line p).events
        = State.declareAny rules ⟨lossy p.word, .function, line, none⟩
          ++ [.change .beforeFunction .body]) ∧
      (s.phase = .beforeVariable → (s.codeStep rules line p).events
        = State.declareAny rules ⟨lossy p.word, .var, line, s.enclosing?⟩
          ++ [.change .beforeVariable .behindVariable])) ∧
    scanWithin rules line (p.line.length - p.offset) s p = some (scanFrom rules line s p) ∧
    (∀ bytes, Offset.cut? bytes = some (cut bytes) ∧
      scanWithin rules line bytes.length s (Place.start bytes)
        = some (scanLine rules line s bytes)) ∧
    ∀ q : Place, q.skipBlanks.offset = q.offset + blanksAt q.after ∧
      q.skipWord.offset = q.offset + q.word.length ∧ Offset.Answered rules.cyrillic q := by
  have hp : p.after ≠ [] := Place.after_ne_nil_iff.mpr left
  have hleft : p.after.length = p.line.length - p.offset := by
    rw [p.length_line, Nat.add_sub_cancel_left]
  exact ⟨State.ahead_step s rules line hp, State.ahead_codeStep s rules line hp,
    fun starts => ⟨Place.word_ne_nil_of_atNameStart starts,
      fun phase => State.events_codeStep_function phase starts,
      fun phase => State.events_codeStep_variable phase starts⟩,
    scanWithin_eq (Nat.le_of_eq hleft),
    fun bytes => ⟨Offset.cut?_eq bytes, scanWithin_start rules line s bytes⟩,
    fun q => ⟨q.offset_skipBlanks, q.offset_skipWord, Offset.answered rules.cyrillic q⟩⟩

/-- A Cyrillic letter cut in two, which starts no name, in front of a letter
that does. -/
theorem scan_goes_ahead_half_letter :
    let p := Place.start [0xD0, 0x78]
    let s : State := { phase := .beforeVariable }
    p.offset < p.line.length ∧ p.Ahead (s.step {} 1 p).place ∧
      Offset.atNameStart? true p.line p.offset = some false ∧
      scanWithin {} 1 2 s p = some (scanFrom {} 1 s p) := by
  intro p s
  have left : p.offset < p.line.length := by decide
  obtain ⟨hstep, -, -, hloop, -, hanswered⟩ := scan_goes_ahead {} 1 s p left
  refine ⟨left, hstep, ?_, hloop⟩
  rw [(hanswered p).2.2.atNameStart]
  decide

end DeclTags
