import DeclTags.Column
import DeclTags.Language

/-!
# What the program says about itself

The texts that are printed instead of tags: how the program is used, which
kinds of tags it knows, and which files it looks at. How it is used is told
under the name by which it was called.
-/

namespace DeclTags

namespace Usage

/-- The name of the program, given what it was called if that is known. -/
def program (called? : Option String) : String := called?.getD "e8tags"

/-- The first line of both usage texts. -/
def synopsis (program : String) : String := "Usage: " ++ program ++ " [OPTION]... [PATH]...\n"

/-- **The short usage text.** -/
def short (program : String) : String :=
  synopsis program ++ "Pass --help for more information.\n"

/-- **The long usage text.** -/
def long (program : String) : String := synopsis program ++
"Print function and variable declarations found in E8Script/OneScript PATHs.
Directories are searched recursively, '-' reads standard input.

Options:
  -h, --help                 Display this message
  --format FORMAT            Output format: ctags (default), xref or json
  -x                         Same as --format xref
  --kinds LETTERS            Emit only the listed kinds (eg. 'fv')

  --[no-]comments            Skip comments (default: on)
  --[no-]strings             Skip string literals (default: on)
  --[no-]cyrillic            Allow identifiers to start with Cyrillic letters
                             (default: on)
  --legacy                   Same as --no-comments --no-strings --no-cyrillic

  --color, --no-color        Force or disable colors in xref output
  --list-kinds               List tag kinds and quit
  --list-maps                List languages and file extensions and quit

"

/-- The column of names in the two tables below. -/
def nameColumn : Column := { width := 10 }

/-- A row of the table of kinds. -/
def kindRow (k : KindEntry) : String :=
  k.letter.toString ++ "  " ++ nameColumn.set k.kind.name ++ " " ++ k.description ++
    (if k.enabled then "" else " [off]") ++ "\n"

/-- **The table of the kinds of a language.** -/
def kinds (l : Language) : String := String.join (l.kinds.map kindRow)

/-- A row of the table of languages. -/
def languageRow (name : String) (l : Language) : String :=
  nameColumn.set name ++ " " ++ " ".intercalate (l.extensions.map ("*." ++ ·)) ++ "\n"

/-- **The table of languages** and the files they are written in. -/
def languages (all : List (String × Language)) : String :=
  String.join (all.map fun (name, l) => languageRow name l)

end Usage

end DeclTags
