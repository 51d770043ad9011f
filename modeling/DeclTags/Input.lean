import DeclTags.Listing
import DeclTags.Source

/-!
# From an input to its listing

An input is a source with a name. Its tags are listed only after it has been
read to its end, so an input that cannot be read contributes nothing to the
output, however many declarations were found before the read that failed.
-/

namespace DeclTags

/-- **What to do with an input.** -/
structure Task where
  /-- What the scan pays attention to. -/
  rules : Rules := {}
  /-- How tags are listed. -/
  format : Format := .ctags
  /-- Are names set in bold? -/
  color : Bool := false
deriving DecidableEq

/-- **What came of an input.** -/
structure Report where
  /-- What arrived in the sink. -/
  written : Bytes
  /-- The number of tags that were listed, or what went wrong. -/
  result : Except Fault Nat
  /-- What the log says. -/
  log : List Record

namespace Task

/-- The pieces of the listing of some tags. -/
def pieces (task : Task) (path : Bytes) (tags : List Tag) : List Piece :=
  Listing.pieces task.format task.color (Utf8.lossy path) tags

/-- **Scanning an input and listing its tags.** -/
def run (task : Task) (sink : Sink) (path : Bytes) (source : Source) : Report :=
  let shown := Utf8.lossy path
  let log := Record.scanning shown :: source.log task.rules
  match source.tags task.rules with
  | .error cause => ⟨[], .error (.input path cause), log⟩
  | .ok tags =>
    let (written, fault?) := sink.write (task.pieces path tags)
    let result := match fault? with
      | some fault => .error fault
      | none => .ok tags.length
    ⟨written, result, log ++ [Record.counted tags.length shown]⟩

end Task

end DeclTags
