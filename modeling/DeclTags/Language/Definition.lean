import DeclTags.Json.Composite
import DeclTags.Json.Skip
import DeclTags.Language

/-!
# Definitions of languages as text

A language may be defined by a text in JSON. A definition has two members,
the extensions and the kinds, and a kind has four; all of them are required,
other members do not matter, and none may occur twice. A record may also be
written as the list of its components, in the order of their declaration.

A kind is written as its name, or as an object whose only member has that
name and no value.
-/

namespace DeclTags

namespace Language

open Json (Flaw Reader)

/-- The kind of a given name, where a name is wanted that a kind has. -/
def kindNamed (name : String) : Except Flaw Kind :=
  match Kind.ofName? name with
  | some k => .ok k
  | none => .error .unfit

/-- The end of an object that has one member. -/
def objectEnd : Reader Unit := fun text =>
  match h : Json.skipSpace text with
  | [] => .error .truncated
  | b :: rest =>
    if b = Ascii.closeBrace then .ok ⟨(), rest, Json.length_lt_of_skipSpace h⟩
    else .error .malformed

/-- The name of the first member of an object, behind the opening brace. There
has to be one, and nothing but a string can be one. -/
def firstName : Reader String := fun text =>
  match Json.member true text with
  | .error flaw => .error flaw
  | .ok (.close _ _) => .error .malformed
  | .ok (.name tail shorter) =>
    (Reader.map Utf8.lossy (Json.stringTail false) tail).map (·.widen (Nat.le_of_lt shorter))

/-- A kind as an object, behind its opening brace. -/
def kindObject : Reader Kind :=
  (firstName.check kindNamed).andThen fun k =>
    Json.colon.andThen fun _ => Json.null.andThen fun _ => objectEnd.map fun _ => k

/-- **A kind.** Only a string or an object can be one; any other value is not
even looked at. -/
def kind : Reader Kind := fun text =>
  match h : Json.skipSpace text with
  | [] => .error .truncated
  | b :: rest =>
    if b = Ascii.quote then (Json.string.check kindNamed) text
    else if b = Ascii.openBrace then
      (kindObject rest).map (·.widen (Json.length_le_of_skipSpace h))
    else .error .malformed

/-- A member that has not occurred before is read; one that has is a flaw. -/
def once {α σ : Type} (before : Option α) (r : Reader α) (keep : α → σ) :
    Except Flaw (Reader σ) :=
  if before.isSome then .error .unfit else .ok (r.map keep)

/-- A member that has to occur. -/
def required {α : Type} (member : Option α) : Except Flaw α :=
  match member with
  | some x => .ok x
  | none => .error .unfit

/-- The members of a kind that have been read. -/
structure KindDraft where
  /-- The kind. -/
  kind? : Option Kind := none
  /-- Its letter. -/
  letter? : Option Char := none
  /-- Its description. -/
  description? : Option String := none
  /-- Whether it is wanted. -/
  enabled? : Option Bool := none

namespace KindDraft

/-- What a member of a given name does to the draft. -/
def field (d : KindDraft) (name : String) : Except Flaw (Reader KindDraft) :=
  match name with
  | "kind" => once d.kind? Language.kind fun x => { d with kind? := some x }
  | "letter" => once d.letter? Json.char fun x => { d with letter? := some x }
  | "description" =>
    once d.description? Json.string fun x => { d with description? := some x }
  | "enabled" => once d.enabled? Json.bool fun x => { d with enabled? := some x }
  | _ => .ok (Json.ignored.map fun _ => d)

/-- The kind of a complete draft. -/
def finish (d : KindDraft) : Except Flaw KindEntry := do
  return ⟨← required d.kind?, ← required d.letter?, ← required d.description?,
    ← required d.enabled?⟩

end KindDraft

/-- A kind with all that is registered of it, as a list of its components. -/
def kindComponents : Reader KindEntry :=
  (Json.component true kind).andThen fun k =>
    (Json.component false Json.char).andThen fun letter =>
      (Json.component false Json.string).andThen fun description =>
        (Json.component false Json.bool).andThen fun enabled =>
          Json.componentsEnd.map fun _ => ⟨k, letter, description, enabled⟩

/-- **A kind with all that is registered of it.** -/
def kindEntry : Reader KindEntry :=
  Json.record KindDraft.field {} KindDraft.finish kindComponents

/-- The members of a definition that have been read. -/
structure Draft where
  /-- The extensions. -/
  extensions? : Option (List String) := none
  /-- The kinds. -/
  kinds? : Option (List KindEntry) := none

namespace Draft

/-- What a member of a given name does to the draft. -/
def field (d : Draft) (name : String) : Except Flaw (Reader Draft) :=
  match name with
  | "extensions" =>
    once d.extensions? (Json.list Json.string) fun x => { d with extensions? := some x }
  | "kinds" => once d.kinds? (Json.list kindEntry) fun x => { d with kinds? := some x }
  | _ => .ok (Json.ignored.map fun _ => d)

/-- The language of a complete draft. -/
def finish (d : Draft) : Except Flaw Language := do
  return ⟨← required d.extensions?, ← required d.kinds?⟩

end Draft

/-- A definition as a list of its components. -/
def components : Reader Language :=
  (Json.component true (Json.list Json.string)).andThen fun extensions =>
    (Json.component false (Json.list kindEntry)).andThen fun kinds =>
      Json.componentsEnd.map fun _ => ⟨extensions, kinds⟩

/-- **The definition of a language.** -/
def definition : Reader Language := Json.record Draft.field {} Draft.finish components

/-- **The language that a text defines**, or what is wrong with the text. -/
def ofText (text : String) : Except Flaw Language :=
  Json.readAll definition (Utf8.ofString text)

/-- **The kind that a text names**, or what is wrong with the text. -/
def kindOfText (text : String) : Except Flaw Kind := Json.readAll kind (Utf8.ofString text)

end Language

end DeclTags
