import DeclTags.Utf8

/-!
# Arguments of a command line

An argument is a byte string. What it looks like is decided on its text, in
which every part that is no text reads as a substitute; what is passed on as
a path is the bytes themselves, since a path need not be text.

One argument may hold several **entries**. A dash followed by letters is one
short flag per letter, and a long flag may have a value attached behind an
equals sign. Entries of one argument share its index, so whoever needs the
whole argument – because it turns out to be the value of the flag before
it – can tell where it ends. Two dashes alone end the flags: they are no
entry, and every argument behind them is a path.
-/

namespace DeclTags

/-- **What an entry looks like.** -/
inductive Form
  /-- A short flag, one letter of an argument with the given text. -/
  | short (letter : Char) (whole : String)
  /-- A long flag, with the text of its argument. -/
  | long (name : String) (whole : String)
  /-- The value attached to the long flag before it. -/
  | attached (value : String)
  /-- An argument that is no flag. -/
  | positional (bytes : Bytes)
deriving DecidableEq

/-- **An entry of a command line.** -/
structure Entry where
  /-- What it looks like. -/
  form : Form
  /-- The number of its argument, from 1. -/
  index : Nat
deriving DecidableEq

namespace Form

/-- The whole argument that an entry comes from; of an attached value, the
value alone. -/
def whole : Form → Bytes
  | short _ whole => Utf8.ofString whole
  | long _ whole => Utf8.ofString whole
  | attached value => Utf8.ofString value
  | positional bytes => bytes

/-- A long flag, whose text behind the dashes is `body`. The first equals
sign, if there is one, separates the name from an attached value. -/
def ofLong (text : String) (body : List Char) : List Form :=
  match body.dropWhile (· ≠ '=') with
  | [] => [long (String.ofList body) text]
  | _ :: value => [long (String.ofList (body.takeWhile (· ≠ '='))) text,
      attached (String.ofList value)]

/-- **The entries of one argument**, or nothing for the two dashes that end
the flags. -/
def ofArgument? (bytes : Bytes) : Option (List Form) :=
  let text := Utf8.lossy bytes
  match text.toList with
  | ['-'] => some [positional bytes]
  | ['-', '-'] => none
  | '-' :: '-' :: body => some (ofLong text body)
  | '-' :: letters => some (letters.map (short · text))
  | _ => some [positional bytes]

end Form

namespace Entry

/-- Arguments that are paths whatever they look like, the first of which has
the given number. -/
def paths : Nat → List Bytes → List Entry
  | _, [] => []
  | n, a :: rest => ⟨.positional a, n⟩ :: paths (n + 1) rest

/-- The entries of some arguments, the first of which has the given number. -/
def ofArgumentsFrom : Nat → List Bytes → List Entry
  | _, [] => []
  | n, a :: rest =>
    match Form.ofArgument? a with
    | none => paths (n + 1) rest
    | some forms => forms.map (⟨·, n⟩) ++ ofArgumentsFrom (n + 1) rest

/-- **The entries of a command line.** -/
def ofArguments (arguments : List Bytes) : List Entry := ofArgumentsFrom 1 arguments

/-- The whole argument that an entry comes from. -/
def whole (e : Entry) : Bytes := e.form.whole

end Entry

end DeclTags
