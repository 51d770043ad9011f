import DeclTags.Ascii
import DeclTags.Scan.State

/-!
# One step of a scan

A scan goes through a line in steps. A step looks at the state and at the
place, moves on, and says what happened. It never refuses anything: bytes
that mean nothing in the current phase are passed over one at a time.

Every step moves on by at least one byte (`length_after_step_lt`), whatever
the bytes are. Taking a keyword or a name is the only case where that is not
plain from the step itself. It holds because keywords are not empty and
because a word carries on wherever a name may start.
-/

namespace DeclTags

/-- **The outcome of a step**: the state and the place after it, and what
happened on the way. -/
structure Step where
  /-- The state after the step. -/
  state : State
  /-- The place after the step. -/
  place : Place
  /-- What happened. -/
  events : List Event

namespace State

/-- The step that goes to a phase, after some events. -/
def goTo (s : State) (phase : Phase) (p : Place) (events : List Event) : Step :=
  ⟨{ s with phase := phase }, p, events ++ s.changeTo phase⟩

/-- The step over a keyword of `n` bytes on line `line`. -/
def takeKeyword (s : State) (line : Nat) (p : Place) (k : Keyword) (n : Nat) : Step :=
  let here := Event.keyword k line (p.offset + 1)
  match k with
  | .var => s.goTo .beforeVariable (p.forward n) [here]
  | .sub => s.goTo .beforeFunction (p.forward n) [here]
  | .endSub =>
    let ended := match s.enclosing? with
      | some f => [Event.bodyEnd f line]
      | none => []
    { s with enclosing? := none }.goTo .outside (p.forward n) (here :: ended)

/-- The step over the name of a function. -/
def takeFunction (s : State) (rules : Rules) (line : Nat) (p : Place) : Step :=
  let name := Utf8.lossy p.word
  { s with enclosing? := some name }.goTo .body p.skipWord
    (declare rules ⟨name, .function, line, none⟩)

/-- The step over the name of a variable. -/
def takeVariable (s : State) (rules : Rules) (line : Nat) (p : Place) : Step :=
  let name := Utf8.lossy p.word
  s.goTo .behindVariable p.skipWord (declare rules ⟨name, .var, line, s.enclosing?⟩)

/-- The keywords that a scan looks for in a phase. -/
def awaited : Phase → List Keyword
  | .outside => [.var, .sub]
  | .body => [.var, .endSub]
  | _ => []

/-- The first of some keywords that stands at a place, with its length. -/
def keywordAt? (p : Place) (keywords : List Keyword) : Option (Keyword × Nat) :=
  keywords.findSome? fun k => (k.at? p).map fun n => (k, n)

/-- **The step over code**, where neither a blank nor a comment nor a string
nor a semicolon stands. -/
def codeStep (s : State) (rules : Rules) (line : Nat) (p : Place) : Step :=
  match s.phase with
  | .outside | .body =>
    match keywordAt? p (awaited s.phase) with
    | some (k, n) => s.takeKeyword line p k n
    | none => ⟨s, p.forward 1, []⟩
  | .beforeFunction =>
    if p.atNameStart rules.cyrillic then s.takeFunction rules line p
    else ⟨s, p.forward 1, []⟩
  | .beforeVariable =>
    if p.atNameStart rules.cyrillic then s.takeVariable rules line p
    else ⟨s, p.forward 1, []⟩
  | .behindVariable =>
    if p.here? = some Ascii.comma then s.goTo .beforeVariable (p.forward 1) []
    else ⟨s, p.forward 1, []⟩

/-- The step that looks for the end of a comment or string. -/
def searchStep (s : State) (b : UInt8) (more : Bytes) (p : Place) : Step :=
  let (q, found) := p.skipPast b more
  ⟨if found then { s with mode := .code } else s, q, []⟩

/-- **One step of a scan** on line `line`. -/
def step (s : State) (rules : Rules) (line : Nat) (p : Place) : Step :=
  match s.mode with
  | .comment => s.searchStep Ascii.star [Ascii.slash] p
  | .string => s.searchStep Ascii.quote [] p
  | .code =>
    let q := p.skipBlanks
    if rules.comments && q.startsWith [Ascii.slash, Ascii.slash] then ⟨s, q.toEnd, []⟩
    else if rules.comments && q.startsWith [Ascii.slash, Ascii.star] then
      ⟨{ s with mode := .comment }, q.forward 2, []⟩
    else if rules.strings && q.here? == some Ascii.quote then
      ⟨{ s with mode := .string }, q.forward 1, []⟩
    else if q.here? = some Ascii.semicolon then s.goTo s.statementPhase (q.forward 1) []
    else if q.atEnd then ⟨s, q, []⟩
    else s.codeStep rules line q

/-! ## Every step moves on -/

@[simp] theorem place_goTo (s : State) (phase : Phase) (p : Place) (events : List Event) :
    (s.goTo phase p events).place = p := rfl

theorem place_takeKeyword (s : State) (line : Nat) (p : Place) (k : Keyword) (n : Nat) :
    (s.takeKeyword line p k n).place = p.forward n := by
  cases k <;> rfl

/-- A keyword that is found at a place covers bytes of the line. -/
theorem keywordAt?_pos {p : Place} {keywords : List Keyword} {k : Keyword} {n : Nat}
    (h : keywordAt? p keywords = some (k, n)) : 0 < n ∧ n ≤ p.after.length := by
  obtain ⟨j, -, hj⟩ := List.exists_of_findSome?_eq_some h
  obtain ⟨m, hm, he⟩ := Option.map_eq_some_iff.mp hj
  obtain ⟨-, rfl⟩ := Prod.mk.inj he
  exact Keyword.at?_pos hm

/-- Stepping over code moves on by at least one byte. -/
theorem length_after_codeStep_lt (s : State) (rules : Rules) (line : Nat) {p : Place}
    (h : p.after ≠ []) : (s.codeStep rules line p).place.after.length < p.after.length := by
  have one : (p.forward 1).after.length < p.after.length :=
    Place.length_after_forward_lt Nat.one_pos h
  have name (hn : p.atNameStart rules.cyrillic = true) :
      p.skipWord.after.length < p.after.length :=
    Place.length_after_forward_lt
      (List.length_pos_iff.mpr (Place.word_ne_nil_of_atNameStart hn)) h
  unfold codeStep
  split
  case h_3 | h_4 => split <;> simp_all [takeFunction, takeVariable]
  case h_5 => split <;> simp_all
  all_goals
    split
    · rename_i hk
      rw [place_takeKeyword]
      exact Place.length_after_forward_lt (keywordAt?_pos hk).1 h
    · exact one

/-- **Every step moves on** by at least one byte, up to the end of the line. -/
theorem length_after_step_lt (s : State) (rules : Rules) (line : Nat) {p : Place}
    (h : p.after ≠ []) : (s.step rules line p).place.after.length < p.after.length := by
  have blanks : p.skipBlanks.after.length ≤ p.after.length := by
    simp [Place.skipBlanks]
  have pos := List.length_pos_iff.mpr h
  have beyond (n : Nat) (hn : 0 < n) :
      (p.skipBlanks.forward n).after.length < p.after.length := by
    rw [Place.after_forward, List.length_drop]
    omega
  unfold step
  split
  case h_1 => exact Place.length_after_skipPast_lt h
  case h_2 => exact Place.length_after_skipPast_lt h
  case h_3 =>
    dsimp only
    split
    · simpa using pos
    · split
      · exact beyond 2 (by omega)
      · split
        · exact beyond 1 (by omega)
        · split
          · exact beyond 1 (by omega)
          · split
            · rename_i he
              simp only [Place.atEnd, List.isEmpty_iff] at he
              simpa [he] using pos
            · rename_i he
              have hq : p.skipBlanks.after ≠ [] := by
                simpa [Place.atEnd, List.isEmpty_iff] using he
              exact Nat.lt_of_lt_of_le (length_after_codeStep_lt s rules line hq) blanks

end State

end DeclTags
