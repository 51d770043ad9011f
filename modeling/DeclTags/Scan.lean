import DeclTags.Scan.Step

/-!
# Scanning a source

A source is scanned line by line in a single pass. The scan of a line is its
steps, one after another, until the line is used up; every step shortens
what is left, so this ends. The state is handed on from line to line, and
lines are numbered from 1.

A scan gives one list of events per line. Keeping them apart by line costs
nothing and says when each tag becomes known, which is what a reader that
prints tags as they are found wants; `events` and `tags` put the lines
together.
-/

namespace DeclTags

/-- **The scan of a line from a place on**: the state at its end, and what
happened. -/
def scanFrom (rules : Rules) (line : Nat) (s : State) (p : Place) : State × List Event :=
  if _h : p.after = [] then (s, [])
  else
    let next := s.step rules line p
    let rest := scanFrom rules line next.state next.place
    (rest.1, next.events ++ rest.2)
termination_by p.after.length
decreasing_by exact State.length_after_step_lt s rules line _h

/-- The scan of a whole line. -/
def scanLine (rules : Rules) (line : Nat) (s : State) (bytes : Bytes) : State × List Event :=
  scanFrom rules line s (Place.start bytes)

/-- **The scan of some lines**, the first of which has the given number: the
state at their end, and what happened on each. -/
def scanLines (rules : Rules) : Nat → State → List Bytes → State × List (List Event)
  | _, s, [] => (s, [])
  | n, s, l :: rest =>
    let here := scanLine rules n s l
    let later := scanLines rules (n + 1) here.1 rest
    (later.1, here.2 :: later.2)

/-- The scan of a whole source, from its first line on. -/
def scan (rules : Rules) (lines : List Bytes) : State × List (List Event) :=
  scanLines rules 1 {} lines

/-- **Everything that happens in the scan of a source**, its end included. -/
def events (rules : Rules) (lines : List Bytes) : List Event :=
  let (final, found) := scan rules lines
  found.flatten ++ final.closing

/-- **The tags of a source**, in the order of the source. -/
def tags (rules : Rules) (lines : List Bytes) : List Tag := tagsOf (events rules lines)

end DeclTags
