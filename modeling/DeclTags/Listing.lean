import DeclTags.Column
import DeclTags.Json.Quoted
import DeclTags.Sink
import DeclTags.Tag

/-!
# Listings of tags

A listing has one line per tag, in one of three formats: a tags file that
editors read, a cross reference that people read, and one JSON object per
line. Each format is a function from a tag to the pieces of its line, so a
listing is the concatenation of its lines whatever the sink makes of it.

Only the cross reference is colored, and only names are: a name is set in
bold, which takes a reset of all attributes before it and another after it.
An object in JSON is a piece of its own, apart from the line feed after it,
since breaking off inside the object is a different fault.
-/

namespace DeclTags

/-- **How tags are listed.** -/
inductive Format
  /-- A tags file: fields between tabs. -/
  | ctags
  /-- A cross reference: columns. -/
  | xref
  /-- One JSON object per line. -/
  | json
deriving DecidableEq

namespace Format

/-- All formats. -/
def all : List Format := [ctags, xref, json]

/-- The name of a format. -/
def name : Format → String
  | ctags => "ctags"
  | xref => "xref"
  | json => "json"

/-- The format of a given name. -/
def ofName? (name : String) : Option Format := all.find? (·.name == name)

/-- What is said about a name that no format has. -/
def unknownMessage (name : String) : String := "Unknown output format: " ++ name

end Format

namespace Listing

/-- The columns of a cross reference: names. -/
def nameColumn : Column := { width := 16 }

/-- The columns of a cross reference: kinds. -/
def kindColumn : Column := { width := 8 }

/-- The columns of a cross reference: line numbers. -/
def lineColumn : Column := { width := 4, alignment := .right }

/-- What makes the text after it bold. -/
def bold : String := "\x1b[0m\x1b[1m"

/-- What undoes that. -/
def reset : String := "\x1b[0m"

/-- The scope of a tag behind a separator, or nothing. -/
def scopeField (separator : String) (t : Tag) : String :=
  match t.scope? with
  | some f => separator ++ Tag.scopeText f
  | none => ""

/-- A line of a tags file. -/
def ctagsLine (path : String) (t : Tag) : List Piece :=
  [{ text := t.name ++ "\t" ++ path ++ "\t" ++ toString t.line ++ ";\"\t" ++
      t.kind.letter.toString ++ scopeField "\t" t ++ "\n" }]

/-- A line of a cross reference. -/
def xrefLine (color : Bool) (path : String) (t : Tag) : List Piece :=
  [{ text := if color then bold else "" },
    { text := nameColumn.set t.name },
    { text := if color then reset else "" },
    { text := " " ++ kindColumn.set t.kind.name ++ " " ++ lineColumn.set (toString t.line) ++
        " " ++ path ++ scopeField " " t ++ "\n" }]

/-- The fields of a tag in JSON: their names, and their values as JSON. -/
def jsonFields (path : String) (t : Tag) : List (String × String) :=
  [("_type", Json.quoted "tag"), ("name", Json.quoted t.name), ("path", Json.quoted path),
    ("line", toString t.line), ("kind", Json.quoted t.kind.name)] ++
  match t.scope? with
  | some f => [("scope", Json.quoted f), ("scopeKind", Json.quoted Tag.scopeKind)]
  | none => []

/-- A tag as a JSON object, without blanks. -/
def jsonObject (path : String) (t : Tag) : String :=
  "\x7b" ++ ",".intercalate
    ((jsonFields path t).map fun (name, value) => Json.quoted name ++ ":" ++ value) ++ "\x7d"

/-- A line of JSON. -/
def jsonLine (path : String) (t : Tag) : List Piece :=
  [{ text := jsonObject path t, fault := .serialization }, { text := "\n" }]

/-- **The line of a tag in a format.** -/
def line (format : Format) (color : Bool) (path : String) (t : Tag) : List Piece :=
  match format with
  | .ctags => ctagsLine path t
  | .xref => xrefLine color path t
  | .json => jsonLine path t

/-- **A listing of tags** that were found in the input of a given name. -/
def pieces (format : Format) (color : Bool) (path : String) (tags : List Tag) : List Piece :=
  tags.flatMap (line format color path)

end Listing

end DeclTags
