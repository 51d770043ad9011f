import DeclTags.Proofs.Text

/-!
# Modules as they are written

A module is a list of items: lists of variables, statements, and routines,
whose bodies are lists of variables and statements again. The same module
may be written in many ways. Keywords are spelled in two languages and in any
letter case, blanks of any kind and number stand between the parts, and every
one of them may be a line break.

The types below hold a module together with one way of writing it: every
choice that a writer has is a field. A value of them is therefore always well
written – a keyword is one, a name is one, a statement holds no keyword that
would start a declaration – and needs no further condition. Two functions
read them: `text` is what is written, and `tags` is what it declares, which
speaks of names, scopes and lines only.

Nothing here says how a text is scanned. The conditions on the free parts of
a text, statements and parameters and what may stand behind a variable, are
about its bytes and words.
-/

namespace DeclTags

open Text

/-! ## Blanks -/

/-- **A blank**: a byte, a character outside ASCII, or the end of a line. The
vertical tab is a blank here. A scan takes it for a mark that says nothing,
which comes to the same. -/
inductive Blank
  /-- A blank byte. -/
  | byte (b : UInt8) (isBlank : isBlankByte b = true)
  /-- A vertical tab. -/
  | verticalTab
  /-- A blank character outside ASCII. -/
  | wide (c : Char) (isBlank : isWideBlank c = true)
  /-- A line break. -/
  | lineBreak

/-- How a blank is written. -/
def Blank.text : Blank → Text
  | byte b _ => [some b]
  | verticalTab => [some 0x0B]
  | wide c _ => ofBytes (String.utf8EncodeChar c)
  | lineBreak => [none]

/-- How blanks are written one after another. -/
def blanks (bs : List Blank) : Text := bs.flatMap Blank.text

/-- **A gap**: at least one blank. -/
structure Gap where
  /-- The first blank. -/
  first : Blank
  /-- Those behind it. -/
  others : List Blank

def Gap.text (g : Gap) : Text := g.first.text ++ blanks g.others

/-! ## Words -/

/-- **A keyword as it is spelled**, in some letter case. -/
structure Spelling (k : Keyword) where
  /-- The bytes of the word. -/
  bytes : Bytes
  /-- The word is the keyword. -/
  spells : k.Spells bytes

/-- **A name**: a word that starts like one. -/
structure Identifier (cyrillic : Bool) where
  /-- The bytes of the word. -/
  bytes : Bytes
  /-- It is a word. -/
  isWord : IsWord bytes
  /-- It starts with a letter or an underscore. -/
  starts : startsName cyrillic bytes = true

/-- The name as it is declared. -/
def Identifier.name {cyrillic : Bool} (i : Identifier cyrillic) : String := Utf8.lossy i.bytes

/-! ## Parts without declarations -/

/-- **A text in which nothing is declared**, read in a phase: it holds nothing
that may be skipped, and no word of it is a keyword that the phase waits
for. -/
structure Prose (phase : Phase) where
  /-- The text. -/
  text : Text
  /-- There is no slash, no quote and no NUL byte in it. -/
  plain : text.Plain
  /-- There is no keyword in it. -/
  noKeyword : ∀ l ∈ text.lines, ∀ w, .word w ∈ lexemes l → ∀ k ∈ State.awaited phase, ¬ k.Spells w

/-- **What ends a statement or a routine**: a semicolon or a blank. -/
inductive Ending
  /-- A semicolon. -/
  | semicolon
  /-- A blank. -/
  | blank (b : Blank)

def Ending.text : Ending → Text
  | semicolon => [some Ascii.semicolon]
  | blank b => b.text

/-- **A statement.** -/
structure Statement (phase : Phase) where
  /-- What it says. -/
  prose : Prose phase
  /-- Its end. -/
  ending : Ending

def Statement.text {phase : Phase} (s : Statement phase) : Text := s.prose.text ++ s.ending.text

/-! ## Parts one after another -/

section Along

variable {α : Type}

/-- What parts of a text declare, if each says what it declares from a line
on: every part starts on the line where the one before it ends. -/
def tagsAlong (text : α → Text) (tags : Nat → α → List Tag) : Nat → List α → List Tag
  | _, [] => []
  | n, x :: xs => tags n x ++ tagsAlong text tags (n + (text x).breaks) xs

end Along

/-! ## Lists of variables -/

variable {cyrillic : Bool}

/-- **A variable in a list**, with what stands before it and behind it. -/
structure Declarator (cyrillic : Bool) where
  /-- The blanks before the name. -/
  lead : List Blank
  /-- The name. -/
  name : Identifier cyrillic
  /-- What stands behind the name: nothing, or blanks and modifiers. -/
  rest : Text
  /-- The name ends before it. -/
  stops : rest.Stops
  /-- There is no slash, no quote and no NUL byte in it. -/
  plain : rest.Plain
  /-- It does not end the declarator. -/
  inside : ∀ b, some b ∈ rest → b ≠ Ascii.comma ∧ b ≠ Ascii.semicolon

namespace Declarator

def text (d : Declarator cyrillic) : Text := blanks d.lead ++ (ofBytes d.name.bytes ++ d.rest)

/-- A variable that is not the first of its list. -/
def nextText (d : Declarator cyrillic) : Text := some Ascii.comma :: d.text

/-- The declaration of a variable whose text starts on line `n`. -/
def tags (scope? : Option String) (n : Nat) (d : Declarator cyrillic) : List Tag :=
  [⟨d.name.name, .var, n + (blanks d.lead).breaks, scope?⟩]

end Declarator

/-- **A list of variables.** -/
structure VarList (cyrillic : Bool) where
  /-- The blanks before the keyword. -/
  lead : List Blank
  /-- The keyword. -/
  keyword : Spelling .var
  /-- The blanks behind the keyword. -/
  gap : Gap
  /-- The first variable. -/
  first : Declarator cyrillic
  /-- The other variables, each behind a comma. -/
  others : List (Declarator cyrillic)

namespace VarList

def text (v : VarList cyrillic) : Text :=
  blanks v.lead ++ (ofBytes v.keyword.bytes ++ (v.gap.text ++ (v.first.text ++
    (v.others.flatMap Declarator.nextText ++ [some Ascii.semicolon]))))

/-- The line on which the first variable starts. -/
def firstAt (n : Nat) (v : VarList cyrillic) : Nat :=
  n + (blanks v.lead).breaks + v.gap.text.breaks

def tags (scope? : Option String) (n : Nat) (v : VarList cyrillic) : List Tag :=
  v.first.tags scope? (v.firstAt n)
    ++ tagsAlong Declarator.nextText (Declarator.tags scope?)
      (v.firstAt n + v.first.text.breaks) v.others

end VarList

/-! ## Routines and modules -/

/-- An opening parenthesis. -/
abbrev Ascii.openParen : UInt8 := 0x28

/-- A closing parenthesis. -/
abbrev Ascii.closeParen : UInt8 := 0x29

/-- **What stands between declarations of routines**, in a phase: a list of
variables or a statement. -/
inductive Part (cyrillic : Bool) (phase : Phase)
  /-- A list of variables. -/
  | vars (v : VarList cyrillic)
  /-- A statement. -/
  | statement (s : Statement phase)

namespace Part

variable {phase : Phase}

def text : Part cyrillic phase → Text
  | vars v => v.text
  | statement s => s.text

def tags (scope? : Option String) (n : Nat) : Part cyrillic phase → List Tag
  | vars v => v.tags scope? n
  | statement _ => []

end Part

/-- **A function or procedure.** -/
structure Routine (cyrillic : Bool) where
  /-- The blanks before the keyword. -/
  lead : List Blank
  /-- The keyword that starts it. -/
  keyword : Spelling .sub
  /-- The blanks behind that keyword. -/
  gap : Gap
  /-- The name. -/
  name : Identifier cyrillic
  /-- The blanks behind the name. -/
  behindName : List Blank
  /-- The text between the parentheses. -/
  parameters : Prose .body
  /-- The body. -/
  body : List (Part cyrillic .body)
  /-- The blanks before the keyword that ends it. -/
  endLead : List Blank
  /-- The keyword that ends it. -/
  endKeyword : Spelling .endSub
  /-- What stands behind that keyword. -/
  ending : Ending

namespace Routine

/-- The text before the name. -/
def head (r : Routine cyrillic) : Text :=
  blanks r.lead ++ (ofBytes r.keyword.bytes ++ r.gap.text)

/-- The text between the name and the body. -/
def signature (r : Routine cyrillic) : Text :=
  blanks r.behindName
    ++ (some Ascii.openParen :: (r.parameters.text ++ [some Ascii.closeParen]))

/-- The text behind the body. -/
def foot (r : Routine cyrillic) : Text :=
  blanks r.endLead ++ (ofBytes r.endKeyword.bytes ++ r.ending.text)

def text (r : Routine cyrillic) : Text :=
  r.head ++ (ofBytes r.name.bytes ++ (r.signature ++ (r.body.flatMap Part.text ++ r.foot)))

def tags (n : Nat) (r : Routine cyrillic) : List Tag :=
  ⟨r.name.name, .function, n + r.head.breaks, none⟩
    :: tagsAlong Part.text (Part.tags (some r.name.name))
      (n + r.head.breaks + r.signature.breaks) r.body

end Routine

/-- **An item of a module.** -/
inductive Item (cyrillic : Bool)
  /-- A list of variables or a statement. -/
  | part (p : Part cyrillic .outside)
  /-- A routine. -/
  | routine (r : Routine cyrillic)

namespace Item

def text : Item cyrillic → Text
  | part p => p.text
  | routine r => r.text

def tags (n : Nat) : Item cyrillic → List Tag
  | part p => p.tags none n
  | routine r => r.tags n

end Item

/-- **The text of a module.** -/
def moduleText (items : List (Item cyrillic)) : Text := items.flatMap Item.text

/-- **The declarations of a module**, in the order of its text. -/
def moduleTags (items : List (Item cyrillic)) : List Tag := tagsAlong Item.text Item.tags 1 items

end DeclTags
