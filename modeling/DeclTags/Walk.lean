import DeclTags.Source

/-!
# Walks

Which files there are under a path is found out by a walk, and how a walk goes
is not decided here: in which order it goes through a directory, what it leaves
out, where it fails. A walk is whatever it comes to under each path, one thing
after another. Trees of files give one (`DeclTags.FileTree`).
-/

namespace DeclTags

/-- **What a walk comes to.** -/
structure Found where
  /-- Its path. -/
  path : Bytes
  /-- Is it a directory? -/
  isDirectory : Bool := false
  /-- How far it is below the path that the walk started from. -/
  depth : Nat := 0
  /-- What opening it gives: its content, or why it cannot be opened. -/
  content : Except String Source

/-- **A walk**: under each path, what it comes to, and the words of its errors,
in order. -/
abbrev Walk := Bytes → List (Except String Found)

end DeclTags
