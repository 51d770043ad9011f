import DeclTags.Quoted
import DeclTags.Scan

/-!
# The log

A scan can be followed in a log. A record of the log has a level and a text;
how an event reads as a record is decided here and nowhere else, so the log
is a view of the events and cannot say anything that did not happen.

The records of a tag spell out the whole tag, with the columns that this
tool leaves empty. Names stand between quotes there (`quoted`), where
characters without a shape of their own are spelled out.
-/

namespace DeclTags

/-- **How much a record matters.** -/
inductive Level
  /-- A detail of the scan. -/
  | trace
  /-- A result of the scan. -/
  | debug
  /-- Something the user should know. -/
  | warn
deriving DecidableEq

/-- The name of a level. -/
def Level.label : Level → String
  | trace => "TRACE"
  | debug => "DEBUG"
  | warn => "WARN"

/-- Is a record of this level shown, unless somebody asks for more? -/
def Level.isShown : Level → Bool
  | warn => true
  | trace | debug => false

/-- **A record of the log.** -/
structure Record where
  /-- How much it matters. -/
  level : Level
  /-- What it says. -/
  text : String
deriving DecidableEq

namespace Record

/-- A record as one line of text. -/
def line (r : Record) : String := r.level.label ++ " " ++ r.text

/-- The name of a kind in records. -/
def kindLabel : Kind → String
  | .function => "Function"
  | .var => "Variable"

/-- The scope of a tag in records. -/
def scopeLabel : Option String → String
  | none => "None"
  | some f => "Some(Scope \x7b kind: Function, name: " ++ quoted f ++ " \x7d)"

/-- A tag spelled out. -/
def tagText (t : Tag) : String :=
  "TagRecord \x7b name: " ++ quoted t.name ++ ", kind: " ++ kindLabel t.kind ++
    ", line: " ++ toString t.line ++ ", scope: " ++ scopeLabel t.scope? ++
    ", arglist: None, vartype: None \x7d"

/-- **The record of an event.** -/
def ofEvent : Event → Record
  | .keyword k line column =>
    ⟨.trace, k.label ++ " at " ++ toString line ++ ":" ++ toString column⟩
  | .change source target => ⟨.trace, source.label ++ " -> " ++ target.label⟩
  | .bodyEnd f line => ⟨.trace, "End of " ++ f ++ " at line " ++ toString line⟩
  | .tag t => ⟨.debug, "Tag: " ++ tagText t⟩
  | .openBody f => ⟨.debug, "End of input inside body of " ++ f⟩

/-- The record of a read that failed. -/
def readFailed (cause : String) : Record := ⟨.warn, "Read failed: " ++ cause⟩

/-- The record at the start of the scan of an input. -/
def scanning (path : String) : Record := ⟨.debug, "Scanning " ++ path⟩

/-- The record at its end. -/
def counted (n : Nat) (path : String) : Record :=
  ⟨.debug, toString n ++ " tags in " ++ path⟩

/-- The record of a file that is not an input. -/
def skipping (path : String) : Record := ⟨.debug, "Skipping " ++ path⟩

end Record

end DeclTags
