import DeclTags.Input
import DeclTags.Settings
import DeclTags.Walk

/-!
# The program

The whole program is a function: from the arguments, the standard input, the
walk through the files and what the terminal says about itself, to what is
printed and the code that the program exits with.

The inputs are scanned one after another, in the order of the command line,
and each of them anew: nothing is handed on from one to the next, except
that the standard input can be read only once. An input that is not there is
reported and does not stop the others.

Two things are printed to the standard error, the records of the log that are
shown (`Level.isShown`) and the faults. A fault is a line. How a record reads is
up to the log, which puts the time of day before it, so whoever wants the bytes
has to say how it does (`Outcome.errors`).
-/

namespace DeclTags

/-- **What the terminal says about itself**, through the environment. -/
structure Terminal where
  /-- The kind of the terminal. -/
  kind? : Option String := none
  /-- Has the user asked for no color? -/
  noColor : Bool := false
deriving DecidableEq

/-- Does the terminal show colors? -/
def Terminal.showsColor (t : Terminal) : Bool :=
  match t.kind? with
  | some kind => kind != "dumb" && !t.noColor
  | none => false

/-- **What a run starts from.** -/
structure Invocation where
  /-- What the program was called, if that is known. -/
  called? : Option String := none
  /-- The arguments, without the name of the program. -/
  arguments : List Bytes
  /-- The standard input. -/
  input : Source := []
  /-- The walk through the files. -/
  walk : Walk
  /-- The terminal. -/
  terminal : Terminal := {}

/-- **What is told besides the listing.** -/
inductive Notice
  /-- A record of the log. -/
  | record (r : Record)
  /-- Something went wrong. -/
  | fault (f : Fault)
deriving DecidableEq

namespace Notice

/-- Is it told unless somebody asks for more? -/
def isShown : Notice → Bool
  | record r => r.level.isShown
  | fault _ => true

/-- Is it a fault? -/
def isFault : Notice → Bool
  | record _ => false
  | fault _ => true

/-- How a notice reads, given how a record does. -/
def text (ofRecord : Record → Bytes) : Notice → Bytes
  | record r => ofRecord r
  | fault f => Utf8.ofString (f.message ++ "\n")

end Notice

/-- **What a run comes to.** -/
structure Outcome where
  /-- The exit code. -/
  code : Nat
  /-- What is printed to the standard output. -/
  output : Bytes
  /-- What is told on the standard error. -/
  notices : List Notice
deriving DecidableEq

/-- **What is printed to the standard error**, given how the log prints a record
that is told after so many other notices. -/
def Outcome.errors (o : Outcome) (ofRecord : Nat → Record → Bytes) : Bytes :=
  (o.notices.mapIdx fun n notice => notice.text (ofRecord n)).flatten

namespace Program

/-- The path that stands for the standard input. -/
def standardInput : Bytes := [Ascii.dash]

/-- **What one path contributes**: what is printed, and what is told. -/
structure Contribution where
  /-- What is printed to the standard output. -/
  output : Bytes
  /-- What is told, also to those who ask for more. -/
  notices : List Notice
deriving DecidableEq

/-- Does something go wrong with a path? -/
def Contribution.fails (c : Contribution) : Bool := c.notices.any Notice.isFault

/-- The contribution of one input. -/
def ofInput (task : Task) (path : Bytes) (content : Source) : Contribution :=
  let report := task.run {} path content
  ⟨report.written, report.log.map .record ++ match report.result with
    | .ok _ => []
    | .error fault => [.fault fault]⟩

/-- **The contribution of what a walk comes to.** A directory has none of its
own. A file below the path that was asked for is an input if it is written in
the language, and the path itself in any case. -/
def ofFound (task : Task) : Except String Found → Contribution
  | .error text => ⟨[], [.fault (.walk text)]⟩
  | .ok f =>
    if f.isDirectory then ⟨[], []⟩
    else if 0 < f.depth && !Language.e8script.handles f.path then
      ⟨[], [.record (.skipping (Utf8.lossy f.path))]⟩
    else
      match f.content with
      | .error cause => ⟨[], [.fault (.input f.path cause)]⟩
      | .ok content => ofInput task f.path content

/-- The contributions of some paths, given what is left of the standard
input. -/
def ofPaths (task : Task) (walk : Walk) : Source → List Bytes → List Contribution
  | _, [] => []
  | input, path :: rest =>
    if path = standardInput then
      ofInput task standardInput input :: ofPaths task walk [] rest
    else (walk path).map (ofFound task) ++ ofPaths task walk input rest

/-- **What several contributions come to.** -/
def outcome (parts : List Contribution) : Outcome where
  code := if parts.any (·.fails) then 2 else 0
  output := parts.flatMap (·.output)
  notices := parts.flatMap fun c => c.notices.filter Notice.isShown

/-- **A run of the program.** -/
def run (i : Invocation) : Outcome :=
  match Settings.ofArguments i.arguments with
  | .error stop =>
    ⟨stop.exitCode, Utf8.ofString (stop.output (Usage.program i.called?)), []⟩
  | .ok settings =>
    outcome (ofPaths (settings.task i.terminal.showsColor) i.walk i.input settings.paths)

end Program

end DeclTags
