import DeclTags.Keyword
import DeclTags.Tag

/-!
# What a scan knows

Between two bytes a scan knows three things. The **phase** says where it is
in a declaration. The **mode** says whether it reads code or is inside a
comment or a string. The **enclosing function** is the one whose body has
been entered and not yet left. All three are kept from one line to the next,
because declarations, comments, strings and bodies all may span lines.

The phase and the enclosing function are separate on purpose. A list of
variables is read the same way inside a body and outside, so the phase alone
does not say where the list ends up; the enclosing function does.

What a scan finds is a list of **events**. A tag is one kind of event; the
others record how the scan got there – the keywords it took, the phases it
went through, the bodies it left. Tags and log are two views of the same
list.
-/

namespace DeclTags

/-- **What a scan pays attention to.** -/
structure Rules where
  /-- Are comments skipped? -/
  comments : Bool := true
  /-- Are string literals skipped? -/
  strings : Bool := true
  /-- May a name start with a Cyrillic letter? -/
  cyrillic : Bool := true
  /-- The kinds of tags that are wanted. -/
  kinds : KindSet := .all
deriving DecidableEq

namespace Rules

/-- Keywords and nothing else: comments and strings are read like code, and
only letters of ASCII start names. -/
def plain : Rules := ⟨false, false, false, .all⟩

end Rules

/-- **Where a scan is in a declaration.** -/
inductive Phase
  /-- Outside every body. -/
  | outside
  /-- In the body of a function. -/
  | body
  /-- In a list of variables, before a name. -/
  | beforeVariable
  /-- In a list of variables, behind a name. -/
  | behindVariable
  /-- In the header of a function, before its name. -/
  | beforeFunction
deriving DecidableEq

/-- The name of a phase in the log. -/
def Phase.label : Phase → String
  | outside => "Default"
  | body => "InFunctionBody"
  | beforeVariable => "VarList"
  | behindVariable => "VarDone"
  | beforeFunction => "SubName"

/-- **What the bytes at a place are part of.** -/
inductive Mode
  /-- Code. -/
  | code
  /-- A comment that goes on until it is closed. -/
  | comment
  /-- A string literal. -/
  | string
deriving DecidableEq

/-- **What a scan knows** between two bytes. -/
structure State where
  /-- Where it is in a declaration. -/
  phase : Phase := .outside
  /-- What it is reading. -/
  mode : Mode := .code
  /-- The function whose body it is in. -/
  enclosing? : Option String := none
deriving DecidableEq

/-- **What happens in a scan.** -/
inductive Event
  /-- A keyword was taken, at a line and a column, both from 1. -/
  | keyword (k : Keyword) (line column : Nat)
  /-- One phase gave way to another. -/
  | change (source target : Phase)
  /-- The body of a function ended on a line. -/
  | bodyEnd (function : String) (line : Nat)
  /-- A wanted declaration was found. -/
  | tag (t : Tag)
  /-- The input ended in the body of a function. -/
  | openBody (function : String)
deriving DecidableEq

namespace Event

/-- The tag of an event, if it has one. -/
def tag? : Event → Option Tag
  | tag t => some t
  | _ => none

end Event

/-- The tags among some events, in order. -/
def tagsOf (events : List Event) : List Tag := events.filterMap Event.tag?

@[simp] theorem tagsOf_nil : tagsOf [] = [] := rfl

@[simp] theorem tagsOf_append (a b : List Event) : tagsOf (a ++ b) = tagsOf a ++ tagsOf b :=
  List.filterMap_append

namespace State

/-- The phase in which a statement starts: a semicolon brings a scan there
from every phase. -/
def statementPhase (s : State) : Phase := if s.enclosing?.isSome then .body else .outside

/-- The event of a change to a phase. Staying in a phase is no event. -/
def changeTo (s : State) (phase : Phase) : List Event :=
  if s.phase = phase then [] else [.change s.phase phase]

/-- The event of a declaration, if it has a name and its kind is wanted. -/
def declare (rules : Rules) (t : Tag) : List Event :=
  if t.name.isEmpty || !rules.kinds.contains t.kind then [] else [.tag t]

/-- What is left to say when the input ends. -/
def closing (s : State) : List Event :=
  match s.enclosing? with
  | some f => [.openBody f]
  | none => []

end State

end DeclTags
