import DeclTags.Argument
import DeclTags.Input
import DeclTags.Settings.Usage

/-!
# Settings of a run

A command line is read in two passes. The first goes through the entries and
says what each one means: a path, a command that changes a setting, or a
reason to stop at once. The second carries out the commands in order. A
command may be a reason to stop too – a format that does not exist, a table
that is asked for – but it is one only in the second pass, so a flag that
nobody knows is reported before a format that does not exist, wherever the
two stand.

Whatever stops the run is a value (`Stop`), with the text it prints and the
code the program exits with. There is no error text anywhere else.
-/

namespace DeclTags

/-- **When names are set in bold.** -/
inductive ColorChoice
  /-- If the terminal can show it. -/
  | auto
  /-- Always. -/
  | always
  /-- Never. -/
  | never
deriving DecidableEq

namespace ColorChoice

/-- The name of a choice. -/
def name : ColorChoice → String
  | auto => "auto"
  | always => "always"
  | never => "never"

end ColorChoice

/-- **The flags that need a value.** -/
inductive ValueFlag
  /-- The format of the listing. -/
  | format
  /-- The letters of the kinds that are wanted. -/
  | kinds
deriving DecidableEq

/-- The name of a flag that needs a value. -/
def ValueFlag.name : ValueFlag → String
  | format => "format"
  | kinds => "kinds"

/-- **Why a run stops** before it looks at an input. -/
inductive Stop
  /-- The short usage text was asked for. -/
  | usage
  /-- The long usage text was asked for. -/
  | help
  /-- A flag lacks its value. -/
  | missingValue (flag : ValueFlag)
  /-- A value is attached to a flag that takes none. -/
  | unexpectedValue (value : String)
  /-- A short flag that does not exist. -/
  | unknownShort (letter : Char)
  /-- A long flag that does not exist. -/
  | unknownLong (name : String)
  /-- A letter that selects no kind. -/
  | unknownKind (letter : Char)
  /-- A format that does not exist. -/
  | unknownFormat (name : String)
  /-- The table of kinds was asked for. -/
  | kindTable
  /-- The table of languages was asked for. -/
  | languageTable
deriving DecidableEq

namespace Stop

/-- What is said about a mistake, on a line before the short usage text. -/
def complaint? : Stop → Option String
  | missingValue flag => some ("Missing argument for --" ++ flag.name)
  | unexpectedValue value => some ("Unexpected value: " ++ value)
  | unknownShort letter => some ("Unknown flag: -" ++ letter.toString)
  | unknownLong name => some ("Unknown flag: --" ++ name)
  | unknownKind letter => some ("Unknown kind: " ++ letter.toString)
  | unknownFormat name => some (Format.unknownMessage name)
  | usage | help | kindTable | languageTable => none

/-- **What a stop prints**, with the name of the program in usage texts. -/
def output (program : String) (s : Stop) : String :=
  match s.complaint? with
  | some complaint => complaint ++ "\n" ++ Usage.short program
  | none =>
    match s with
    | help => Usage.long program
    | kindTable => Usage.kinds Language.e8script
    | languageTable => Usage.languages Language.all
    | _ => Usage.short program

/-- **The exit code of a stop**: a mistake is a failure. -/
def exitCode (s : Stop) : Nat := if s.complaint?.isSome then 1 else 0

end Stop

/-- **What changes a setting.** -/
inductive Command
  /-- Want the kinds of these letters. -/
  | kinds (letters : String)
  /-- List in the format of this name. -/
  | format (name : String)
  /-- Skip comments, or do not. -/
  | comments (on : Bool)
  /-- Skip string literals, or do not. -/
  | strings (on : Bool)
  /-- Let names start with Cyrillic letters, or do not. -/
  | cyrillic (on : Bool)
  /-- Look at keywords and nothing else. -/
  | plain
  /-- Choose when names are set in bold. -/
  | color (choice : ColorChoice)
  /-- Print the table of kinds. -/
  | kindTable
  /-- Print the table of languages. -/
  | languageTable
deriving DecidableEq

/-- The command of a flag with its value. -/
def ValueFlag.command (flag : ValueFlag) (value : String) : Command :=
  match flag with
  | format => .format value
  | kinds => .kinds value

/-- **What an entry means.** -/
inductive Meaning
  /-- Stop at once. -/
  | stop (reason : Stop)
  /-- Carry out a command. -/
  | command (c : Command)
  /-- Take the value that follows. -/
  | valued (flag : ValueFlag)
  /-- Scan what is under a path. -/
  | path (bytes : Bytes)
deriving DecidableEq

/-- The meanings of the long flags. -/
def Meaning.ofLong (name : String) : Meaning :=
  match name with
  | "help" => .stop .help
  | "format" => .valued .format
  | "kinds" => .valued .kinds
  | "comments" => .command (.comments true)
  | "no-comments" => .command (.comments false)
  | "strings" => .command (.strings true)
  | "no-strings" => .command (.strings false)
  | "cyrillic" => .command (.cyrillic true)
  | "no-cyrillic" => .command (.cyrillic false)
  | "legacy" => .command .plain
  | "color" => .command (.color .always)
  | "no-color" => .command (.color .never)
  | "list-kinds" => .command .kindTable
  | "list-maps" => .command .languageTable
  | _ => .stop (.unknownLong name)

/-- **The meaning of an entry** that is not the value of a flag. -/
def Meaning.ofForm : Form → Meaning
  | .short 'h' _ => .stop .usage
  | .short 'x' _ => .command (.format Format.xref.name)
  | .short letter _ => .stop (.unknownShort letter)
  | .long name _ => ofLong name
  | .attached value => .stop (.unexpectedValue value)
  | .positional bytes => .path bytes

/-- **The first pass**: the commands of some entries and the paths among
them, or the reason to stop that comes first. A flag with a value takes the
whole argument that the next entry comes from. -/
def Command.ofEntries : List Entry → Except Stop (List Command × List Bytes)
  | [] => .ok ([], [])
  | e :: rest =>
    match Meaning.ofForm e.form with
    | .stop reason => .error reason
    | .command c => (ofEntries rest).map fun (commands, paths) => (c :: commands, paths)
    | .path bytes => (ofEntries rest).map fun (commands, paths) => (commands, bytes :: paths)
    | .valued flag =>
      match rest with
      | [] => .error (.missingValue flag)
      | v :: later =>
        (ofEntries (later.dropWhile (·.index == v.index))).map fun (commands, paths) =>
          (flag.command (Utf8.lossy v.whole) :: commands, paths)
termination_by entries => entries.length
decreasing_by
  all_goals simp only [List.length_cons]
  · omega
  · omega
  · have := (List.dropWhile_suffix (·.index == v.index) (l := later)).length_le
    omega

/-- The path that is scanned if no other is asked for. -/
def currentDirectory : Bytes := [Ascii.dot, Ascii.slash]

/-- **The settings of a run.** -/
structure Settings where
  /-- The paths to scan. A single dash is the standard input. -/
  paths : List Bytes := [currentDirectory]
  /-- What the scan pays attention to. -/
  rules : Rules := { kinds := Language.e8script.defaultKinds }
  /-- How tags are listed. -/
  format : Format := .ctags
  /-- When names are set in bold. -/
  color : ColorChoice := .auto
deriving DecidableEq

namespace Settings

/-- **Carrying out a command.** Plain rules keep the kinds that are wanted. -/
def apply (s : Settings) : Command → Except Stop Settings
  | .kinds letters =>
    match Language.e8script.select letters with
    | .ok kinds => .ok { s with rules := { s.rules with kinds := kinds } }
    | .error letter => .error (.unknownKind letter)
  | .format name =>
    match Format.ofName? name with
    | some format => .ok { s with format := format }
    | none => .error (.unknownFormat name)
  | .comments on => .ok { s with rules := { s.rules with comments := on } }
  | .strings on => .ok { s with rules := { s.rules with strings := on } }
  | .cyrillic on => .ok { s with rules := { s.rules with cyrillic := on } }
  | .plain => .ok { s with rules := { Rules.plain with kinds := s.rules.kinds } }
  | .color choice => .ok { s with color := choice }
  | .kindTable => .error .kindTable
  | .languageTable => .error .languageTable

/-- The settings with some paths, unless there are none. -/
def withPaths (s : Settings) (paths : List Bytes) : Settings :=
  if paths.isEmpty then s else { s with paths := paths }

/-- **The settings that a command line asks for**, or the reason to stop. The
arguments do not include the name of the program. -/
def ofArguments (arguments : List Bytes) : Except Stop Settings := do
  let (commands, paths) ← Command.ofEntries (Entry.ofArguments arguments)
  let settings ← commands.foldlM apply {}
  return settings.withPaths paths

/-- What is to be done with every input, given whether the terminal shows
colors. -/
def task (s : Settings) (terminalShowsColor : Bool) : Task where
  rules := s.rules
  format := s.format
  color := match s.color with
    | .auto => terminalShowsColor
    | .always => true
    | .never => false

end Settings

end DeclTags
