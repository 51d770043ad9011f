import DeclTags.Ascii
import DeclTags.Utf8

/-!
# Paths

A path is a byte string, cut into parts by slashes. Most parts are names.
Two are not – a single dot stays where it is, two dots lead up – and an empty
part, which a doubled or a final slash makes, stays where it is as well.

The extension of a path is the extension of the last name in it. A name has
one if there is a dot in it that is not its first character: the extension
is what comes after the last dot, which may be nothing.
-/

namespace DeclTags

namespace Path

/-- **The parts of a path**, between its slashes. There is always one. -/
def parts : Bytes → List Bytes
  | [] => [[]]
  | b :: rest =>
    if b = Ascii.slash then [] :: parts rest
    else
      match parts rest with
      | [] => [[b]]
      | p :: more => (b :: p) :: more

/-- Does a part stay where it is? -/
def isStay (part : Bytes) : Bool := part = [] || part = [Ascii.dot]

/-- Does a part lead up? -/
def isUp (part : Bytes) : Bool := part = [Ascii.dot, Ascii.dot]

/-- **The last name in a path**, if the path does not end by leading up. -/
def name? (path : Bytes) : Option Bytes :=
  (((parts path).filter fun p => !isStay p).getLast?).filter fun p => !isUp p

/-- The extension of a name. -/
def extensionOfName? (name : Bytes) : Option Bytes :=
  match name.reverse.dropWhile (· ≠ Ascii.dot) with
  | _ :: _ :: _ => some (name.reverse.takeWhile (· ≠ Ascii.dot)).reverse
  | _ => none

/-- **The extension of a path.** -/
def extension? (path : Bytes) : Option Bytes := (name? path).bind extensionOfName?

/-- Is a name hidden from a listing of its directory? -/
def isHidden (name : Bytes) : Bool := name.head? = some Ascii.dot

/-- **The path of an entry of a directory.** There is a slash between the two,
unless the path of the directory ends with one. -/
def join (directory name : Bytes) : Bytes :=
  if directory.getLast? = some Ascii.slash then directory ++ name
  else directory ++ Ascii.slash :: name

end Path

end DeclTags
