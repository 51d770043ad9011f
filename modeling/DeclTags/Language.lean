import DeclTags.Path
import DeclTags.Tag

/-!
# Languages

A language says which files it is written in, by their extensions, and which
kinds of tags it has. A kind is registered with a letter, by which it is
selected on the command line, and may be off unless selected.

There is one language here. The type does not know that: what a language
registers is data, and a definition may be read from a text
(`DeclTags.Language.Definition`).
-/

namespace DeclTags

/-- **A kind as a language registers it.** -/
structure KindEntry where
  /-- The kind. -/
  kind : Kind
  /-- The letter by which it is selected. -/
  letter : Char
  /-- What its tags are called in the plural. -/
  description : String
  /-- Is it wanted unless something else is said? -/
  enabled : Bool
deriving DecidableEq

/-- **A language.** -/
structure Language where
  /-- The extensions of its files, without the dot. -/
  extensions : List String
  /-- Its kinds of tags. -/
  kinds : List KindEntry
deriving DecidableEq

namespace Language

/-- E8Script and OneScript, which are one language in this respect. -/
def e8script : Language where
  extensions := ["e8s", "os", "1scr"]
  kinds := [⟨.function, 'f', "functions", true⟩, ⟨.var, 'v', "variables", true⟩]

/-- All languages, by name. -/
def all : List (String × Language) := [("E8Script", e8script)]

/-- Are two texts equal up to the case of letters of ASCII? -/
def sameUpToCase (a b : String) : Bool := a.toList.map Char.toLower == b.toList.map Char.toLower

/-- **Is a file written in the language?** Its extension decides, up to the
case of letters of ASCII. -/
def handles (l : Language) (path : Bytes) : Bool :=
  match Path.extension? path with
  | some ext => l.extensions.any (sameUpToCase · (Utf8.lossy ext))
  | none => false

/-- **The kinds that are wanted unless something else is said.** A language
that registers no kinds wants them all. -/
def defaultKinds (l : Language) : KindSet :=
  if l.kinds.isEmpty then .all
  else KindSet.ofList ((l.kinds.filter (·.enabled)).map (·.kind))

/-- The kind that is selected by a letter: the first one registered with it. -/
def byLetter? (l : Language) (letter : Char) : Option KindEntry :=
  l.kinds.find? (·.letter == letter)

/-- The kind that is selected by a letter, or the letter if none is. -/
def selectOne (l : Language) (letter : Char) : Except Char Kind :=
  match l.byLetter? letter with
  | some entry => .ok entry.kind
  | none => .error letter

/-- **The kinds that some letters select**, or the first letter that selects
none. -/
def select (l : Language) (letters : String) : Except Char KindSet :=
  (letters.toList.mapM l.selectOne).map KindSet.ofList

end Language

end DeclTags
