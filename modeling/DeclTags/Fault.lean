import DeclTags.Utf8

/-!
# What can go wrong

Scanning cannot fail. What fails is everything around it: a walk through
directories, an input that cannot be opened or cannot be read to its end, and an
output that takes no more. A fault keeps its cause, and its wording is decided
here, except that of a walk, which has words of its own.
-/

namespace DeclTags

/-- **What went wrong.** -/
inductive Fault
  /-- A walk through directories failed. -/
  | walk (text : String)
  /-- An input could not be opened, or not be read to its end. -/
  | input (path : Bytes) (cause : String)
  /-- Tags could not be written. -/
  | output (cause : String)
  /-- The writing of a tag broke off inside an object. -/
  | serialization (cause : String)
deriving DecidableEq

/-- **The wording of a fault.** Paths are shown with a substitute for every
part that is not text. -/
def Fault.message : Fault → String
  | walk text => text
  | input path cause => Utf8.lossy path ++ ": " ++ cause
  | output cause => "Cannot write tags: " ++ cause
  | serialization cause => "Cannot serialize tag: " ++ cause

end DeclTags
