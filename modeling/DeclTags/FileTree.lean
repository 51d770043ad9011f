import DeclTags.Path
import DeclTags.Walk

/-!
# Trees of files

A tree of files is a file with its content, or a directory with its entries.
The content of a file is a source, so a file that is there but cannot be read
is one whose source fails. Two things are done with a tree. A path is looked
up in it, part by part, which fails if a part does not exist or if it would
have to be inside a file. And the tree is walked: a walk under a path comes to
what is found there and, if it is a directory, to everything in it, at any
depth, that is not hidden.

This is how a walk goes if no file says what to leave out and everything in a
directory can be looked at. A run takes any other walk as well.
-/

namespace DeclTags

/-- **A tree of files.** -/
inductive FileTree
  /-- A file and its content. -/
  | file (content : Source)
  /-- A directory and its entries, by name. -/
  | directory (entries : List (Bytes × FileTree))

/-- **Why a path leads nowhere.** -/
inductive LookupError
  /-- A part of it does not exist. -/
  | notFound
  /-- A part of it would have to be inside a file. -/
  | notDirectory
deriving DecidableEq

namespace LookupError

/-- The cause that is named. -/
def cause : LookupError → String
  | notFound => "No such file or directory (os error 2)"
  | notDirectory => "Not a directory (os error 20)"

/-- The words of a walk that fails to look up a path. -/
def text (path : Bytes) (e : LookupError) : String :=
  let shown := Utf8.lossy path
  shown ++ ": IO error for operation on " ++ shown ++ ": " ++ e.cause

end LookupError

namespace FileTree

/-- The tree without files. -/
def empty : FileTree := .directory []

/-- The entries of a directory. A file has none. -/
def entries : FileTree → List (Bytes × FileTree)
  | file _ => []
  | directory entries => entries

/-- The entry of a given name. -/
def entry? (t : FileTree) (name : Bytes) : Option FileTree := t.entries.lookup name

/-- Entries with one of them replaced, or added at the end. -/
def putEntry (name : Bytes) (t : FileTree) : List (Bytes × FileTree) → List (Bytes × FileTree)
  | [] => [(name, t)]
  | (n, u) :: rest => if n = name then (n, t) :: rest else (n, u) :: putEntry name t rest

/-- A tree with what stands under some names, one inside the other, replaced
by the result of `change`. Directories on the way are made if need be. -/
def update (change : Option FileTree → FileTree) : List Bytes → FileTree → FileTree
  | [], t => change (some t)
  | [name], t => .directory (putEntry name (change (t.entry? name)) t.entries)
  | name :: rest, t =>
    .directory (putEntry name (update change rest ((t.entry? name).getD empty)) t.entries)

/-- The names of a path that only leads down. -/
def names (path : Bytes) : List Bytes := (Path.parts path).filter fun p => !Path.isStay p

/-- The tree with a file put under a path. -/
def putFile (path : Bytes) (content : Source) (t : FileTree) : FileTree :=
  update (fun _ => .file content) (names path) t

/-- The tree with a directory made under a path. -/
def putDirectory (path : Bytes) (t : FileTree) : FileTree :=
  update (·.getD empty) (names path) t

/-! ## Looking up a path -/

/-- Following the parts of a path from a tree, inside the directories given
nearest first. There is no way up from the outermost one. -/
def follow (above : List FileTree) (t : FileTree) : List Bytes → Except LookupError FileTree
  | [] => .ok t
  | part :: rest =>
    match t with
    | file _ => .error .notDirectory
    | directory entries =>
      if Path.isStay part then follow above t rest
      else if Path.isUp part then
        match above with
        | [] => .error .notFound
        | parent :: outer => follow outer parent rest
      else
        match entries.lookup part with
        | some u => follow (t :: above) u rest
        | none => .error .notFound

/-- **What is found under a path.** The empty path leads nowhere. -/
def find (t : FileTree) (path : Bytes) : Except LookupError FileTree :=
  if path.isEmpty then .error .notFound else follow [] t (Path.parts path)

/-! ## Walking -/

mutual

/-- What a walk comes to in a tree that it finds under a path, at some depth. A
directory can be opened, but it cannot be read. -/
def foundAt (depth : Nat) (path : Bytes) : FileTree → List Found
  | file content => [{ path, depth, content := .ok content }]
  | directory entries =>
    { path, depth, isDirectory := true, content := .ok [.failure "Is a directory (os error 21)"] }
      :: foundIn (depth + 1) path entries

/-- What it comes to among the entries of the directory with a path. -/
def foundIn (depth : Nat) (path : Bytes) : List (Bytes × FileTree) → List Found
  | [] => []
  | (name, t) :: rest =>
    (if Path.isHidden name then [] else foundAt depth (Path.join path name) t) ++
      foundIn depth path rest

end

/-- What a walk comes to under a path, given what is found there. -/
def walkFrom (path : Bytes) : Except LookupError FileTree → List (Except String Found)
  | .error e => [.error (e.text path)]
  | .ok t => (foundAt 0 path t).map .ok

/-- **The walk of a tree.** -/
def walk (t : FileTree) : Walk := fun path => walkFrom path (t.find path)

end FileTree

end DeclTags
