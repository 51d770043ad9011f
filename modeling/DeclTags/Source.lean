import DeclTags.Ascii
import DeclTags.Log
import DeclTags.Scan

/-!
# Sources and their lines

Source text arrives in pieces: some bytes, then some more, perhaps a read
that is interrupted and tried again, perhaps one that fails. None of this is
visible in the lines, with one exception. A read that fails ends the source,
and the line it interrupts is lost, because nobody can say what the rest of
that line would have been.

An **intake** takes lines off a source one at a time. A line ends with a
line feed, and a carriage return right before the line feed belongs to it;
the last line of a source needs no end. A byte order mark is not part of the
first line. When a read fails the intake keeps the cause, so a caller that
reads until there are no more lines learns afterwards whether there should
have been more.
-/

namespace DeclTags

/-- **What arrives from a source.** -/
inductive Arrival
  /-- Some bytes. -/
  | data (bytes : Bytes)
  /-- An interrupted read, which is tried again. -/
  | interruption
  /-- A read that failed, with the reason. -/
  | failure (cause : String)
deriving DecidableEq

/-- **A source**: everything that arrives from it, in order. -/
abbrev Source := List Arrival

/-- The source that holds the given bytes. -/
def Source.ofBytes (bytes : Bytes) : Source := [.data bytes]

/-- The byte order mark. -/
def byteOrderMark : Bytes := [0xEF, 0xBB, 0xBF]

/-- **What one read for a line gives.** -/
inductive Fetch
  /-- A line with its end, and what is left of the source. -/
  | line (bytes : Bytes) (pending : Bytes) (later : Source)
  /-- The end of the source, with the bytes that no line feed follows. -/
  | finished (bytes : Bytes)
  /-- A read failed. -/
  | failed (cause : String)

namespace Fetch

/-- The fetch with some bytes in front of what it gives. -/
def after (bytes : Bytes) : Fetch → Fetch
  | line l pending later => line (bytes ++ l) pending later
  | finished rest => finished (bytes ++ rest)
  | failed cause => failed cause

/-- The bytes up to the first line feed, and everything from it on. -/
def cut (bytes : Bytes) : Bytes × Bytes :=
  (bytes.takeWhile (· ≠ Ascii.lineFeed), bytes.dropWhile (· ≠ Ascii.lineFeed))

/-- **One read for a line**: from the bytes at hand, and then from the
source. -/
def read (pending : Bytes) : Source → Fetch
  | [] =>
    match cut pending with
    | (l, _ :: rest) => line (l ++ [Ascii.lineFeed]) rest []
    | (l, []) => finished l
  | arrival :: later =>
    match cut pending with
    | (l, _ :: rest) => line (l ++ [Ascii.lineFeed]) rest (arrival :: later)
    | (l, []) =>
      match arrival with
      | .data bytes => (read bytes later).after l
      | .interruption => (read [] later).after l
      | .failure cause => failed cause

/-- How much of a source is left, with the bytes at hand. -/
def size (pending : Bytes) : Source → Nat
  | [] => pending.length
  | .data bytes :: later => pending.length + size bytes later + 1
  | _ :: later => pending.length + size [] later + 1

/-- A cut leaves both parts of the bytes. -/
theorem cut_append (bytes : Bytes) : (cut bytes).1 ++ (cut bytes).2 = bytes :=
  List.takeWhile_append_dropWhile

/-- What a line of the bytes at hand leaves of them is shorter. -/
theorem length_lt_of_cut {bytes l rest : Bytes} {b : UInt8}
    (h : cut bytes = (l, b :: rest)) : rest.length < bytes.length := by
  rw [← cut_append bytes, h, List.length_append, List.length_cons]
  omega

/-- A read that gives a line leaves less of the source, and one that reaches
the end gives no more bytes than were left. -/
theorem size_of_read (pending : Bytes) (source : Source) :
    match read pending source with
    | line _ pending' later' => size pending' later' < size pending source
    | finished l => l.length ≤ size pending source
    | failed _ => True := by
  fun_induction read pending source with
  | case1 pending l b rest h => simpa [size] using length_lt_of_cut h
  | case2 pending l h =>
    have := cut_append pending
    rw [h] at this
    simp [size, ← this]
  | case3 pending arrival later l b rest h =>
    have := length_lt_of_cut h
    cases arrival <;> simp [size] <;> omega
  | case4 pending later l h bytes ih =>
    have := cut_append pending
    rw [h] at this
    revert ih
    cases read bytes later <;> simp [after, size, ← this] <;> omega
  | case5 pending later l h ih =>
    have := cut_append pending
    rw [h] at this
    revert ih
    cases read [] later <;> simp [after, size, ← this] <;> omega
  | case6 => trivial

end Fetch

/-- A line without its end: a line feed, and a carriage return before it. A
carriage return at the end of an unended line belongs to the line. -/
def withoutEnd (l : Bytes) : Bytes :=
  if l.getLast? = some Ascii.lineFeed then
    let l := l.dropLast
    if l.getLast? = some Ascii.carriageReturn then l.dropLast else l
  else l

/-- A line without a byte order mark at its start. -/
def withoutMark (l : Bytes) : Bytes :=
  if byteOrderMark.isPrefixOf l then l.drop byteOrderMark.length else l

/-- **A source from which lines are being taken.** -/
structure Intake where
  /-- The bytes that have arrived and are in no line yet. -/
  pending : Bytes := []
  /-- What has not arrived yet. -/
  source : Source
  /-- Has a line been taken? -/
  started : Bool := false
  /-- Has the source been found to have no more lines? -/
  ended : Bool := false
  /-- Why a read failed, if one did. -/
  failure? : Option String := none
deriving DecidableEq

namespace Intake

/-- A line as it is handed out. -/
def handOut (i : Intake) (l : Bytes) : Bytes :=
  if i.started then withoutEnd l else withoutMark (withoutEnd l)

/-- **Taking a line**: the next line of the source, if there is one, and the
intake after it. -/
def next (i : Intake) : Option Bytes × Intake :=
  if i.ended then (none, i)
  else
    match Fetch.read i.pending i.source with
    | .line l pending later =>
      (some (i.handOut l), { i with pending := pending, source := later, started := true })
    | .finished [] => (none, { i with ended := true })
    | .finished (b :: l) =>
      (some (i.handOut (b :: l)), { i with pending := [], source := [], started := true })
    | .failed cause => (none, { i with ended := true, failure? := some cause })

/-- A line that is taken is no longer in the source. -/
theorem size_lt_of_next {i j : Intake} {l : Bytes} (h : i.next = (some l, j)) :
    Fetch.size j.pending j.source < Fetch.size i.pending i.source := by
  have hr := Fetch.size_of_read i.pending i.source
  unfold next at h
  split at h
  · simp at h
  · split at h <;> rename_i hread <;> rw [hread] at hr
    · obtain ⟨-, rfl⟩ := Prod.mk.inj h
      exact hr
    · simp at h
    · obtain ⟨-, rfl⟩ := Prod.mk.inj h
      exact Nat.lt_of_lt_of_le (Nat.succ_pos _) hr
    · simp at h

/-- **All lines that are left**, and the intake after them. -/
def lines (i : Intake) : List Bytes × Intake :=
  match _h : i.next with
  | (none, j) => ([], j)
  | (some l, j) =>
    let rest := j.lines
    (l :: rest.1, rest.2)
termination_by Fetch.size i.pending i.source
decreasing_by exact size_lt_of_next _h

/-- A number of lines, one after another, with the intake after them. Once
there are no more lines every later one is missing. -/
def takeLines (i : Intake) : Nat → List (Option Bytes) × Intake
  | 0 => ([], i)
  | n + 1 =>
    let (l, j) := i.next
    let rest := j.takeLines n
    (l :: rest.1, rest.2)

/-- The log of an intake: a failure is worth a warning. -/
def log (i : Intake) : List Record := i.failure?.toList.map Record.readFailed

end Intake

/-! ## Scanning a source -/

/-- **What the scan of a source gives**: the events of its lines, the state
at their end, and why a read failed if one did. -/
structure SourceScan where
  /-- What happened. -/
  events : List Event
  /-- The state in which the lines ended. -/
  final : State
  /-- Why a read failed. -/
  failure? : Option String

namespace Source

/-- **The scan of a source.** The lines before a failed read are scanned like
any others. -/
def scan (rules : Rules) (source : Source) : SourceScan :=
  let (lines, i) := Intake.lines { source }
  let (final, found) := DeclTags.scan rules lines
  ⟨found.flatten, final, i.failure?⟩

/-- **The tags of a source**, or the reason why it could not be read to its
end. A source that could not be read has no tags, whatever was found before
the read that failed. -/
def tags (rules : Rules) (source : Source) : Except String (List Tag) :=
  let s := source.scan rules
  match s.failure? with
  | some cause => .error cause
  | none => .ok (tagsOf s.events)

/-- The log of the scan of a source. The reader speaks when it stops, before
the scan knows that its input has ended. -/
def log (rules : Rules) (source : Source) : List Record :=
  let s := source.scan rules
  s.events.map Record.ofEvent ++ s.failure?.toList.map Record.readFailed ++
    s.final.closing.map Record.ofEvent

end Source

end DeclTags
