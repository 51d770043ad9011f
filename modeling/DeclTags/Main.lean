import DeclTags.FileTree
import DeclTags.Program

/-!
# The command line

The program is a function (`Program.run`), and this module runs it: it
gathers what the function needs from the system, and passes on what comes
back. The standard input is read only if some path asks for it, and files
only below the paths that are asked for.
-/

namespace DeclTags

namespace Main

/-- The bytes of an array. -/
def bytesOf (array : ByteArray) : Bytes := array.toList

/-- The source that some reading gives: its bytes, or its failure. -/
def sourceOf (reading : IO ByteArray) : IO Source := do
  try
    return Source.ofBytes (bytesOf (← reading))
  catch e => return [.failure (toString e)]

/-- How deep directories are searched. A path has at most 4096 bytes, and a
name takes two of them with the slash before it. -/
def greatestDepth : Nat := 2048

/-- The tree of files at an entry of a directory. -/
def load : Nat → IO.FS.DirEntry → IO FileTree
  | 0, _ => return .empty
  | depth + 1, e => do
    if (← e.path.metadata).type == .dir then
      let below ← (← e.path.readDir).toList.mapM fun c => do
        return (Utf8.ofString c.fileName, ← load depth c)
      return .directory below
    else return .file (← sourceOf (IO.FS.readBinFile e.path))

/-- What is found under a path. -/
def find (path : Bytes) : IO (Except LookupError FileTree) := do
  if path.isEmpty then return .error .notFound
  let entry : IO.FS.DirEntry := { root := ".", fileName := Utf8.lossy path }
  try
    return .ok (← load greatestDepth entry)
  catch
    | .inappropriateType .. => return .error .notDirectory
    | _ => return .error .notFound

/-- All bytes of the standard input. -/
def standardInput : IO ByteArray := do
  let stream ← IO.getStdin
  let mut all := ByteArray.empty
  repeat
    let chunk ← stream.read 65536
    if chunk.isEmpty then break
    all := all ++ chunk
  return all

/-- What a run starts from, given the paths that it will ask for. -/
def gather (arguments paths : List Bytes) : IO Invocation := do
  let found ← (paths.filter (· ≠ Program.standardInput)).mapM fun path => do
    return (path, ← find path)
  return {
    called? := (← IO.appPath).fileName
    arguments
    input := ← if paths.contains Program.standardInput then sourceOf standardInput else pure []
    walk := fun path => FileTree.walkFrom path ((found.lookup path).getD (.error .notFound))
    terminal := {
      kind? := ← IO.getEnv "TERM"
      noColor := (← IO.getEnv "NO_COLOR").isSome } }

/-- A record of the log as it is printed, without the time. The records that are
shown all come from reading an input. -/
def lineOf (r : Record) : Bytes :=
  Utf8.ofString ("[" ++ r.level.label ++ "  e8tags::reader] " ++ r.text ++ "\n")

end Main

end DeclTags

open DeclTags in
/-- Lists the declarations in the files that the arguments name. -/
def main (arguments : List String) : IO UInt32 := do
  let arguments := arguments.map Utf8.ofString
  let paths := match Settings.ofArguments arguments with
    | .ok settings => settings.paths
    | .error _ => []
  let outcome := Program.run (← Main.gather arguments paths)
  (← IO.getStdout).write outcome.output.toByteArray
  (← IO.getStderr).write (outcome.errors fun _ r => Main.lineOf r).toByteArray
  return outcome.code.toUInt32
