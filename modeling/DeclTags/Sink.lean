import DeclTags.Fault

/-!
# Writing to a sink

Output leaves the program in pieces, and the sink it goes to may be full
before the last piece. A sink with room for `n` bytes takes the first `n`
bytes, wherever the pieces are cut, and refuses the next one. Which fault
that is depends on the piece it happens in, so every piece brings its own.
-/

namespace DeclTags

/-- **A piece of output**: a text, and the fault that breaking off in it is. -/
structure Piece where
  /-- What is written. -/
  text : String
  /-- What it means if that fails. -/
  fault : String → Fault := .output

/-- The bytes of a piece. -/
def Piece.bytes (p : Piece) : Bytes := Utf8.ofString p.text

/-- **Where output goes.** -/
structure Sink where
  /-- The number of bytes that it takes, unless it takes any number. -/
  room? : Option Nat := none
  /-- The reason it gives for taking no more. -/
  refusal : String := ""
deriving DecidableEq

namespace Sink

/-- **Writing some pieces**: what arrived in the sink, and the fault that
ended the writing early, if one did. -/
def write (sink : Sink) : List Piece → Bytes × Option Fault
  | [] => ([], none)
  | p :: rest =>
    match sink.room? with
    | none =>
      let later := write sink rest
      (p.bytes ++ later.1, later.2)
    | some room =>
      if p.bytes.length ≤ room then
        let later := write { sink with room? := some (room - p.bytes.length) } rest
        (p.bytes ++ later.1, later.2)
      else (p.bytes.take room, some (p.fault sink.refusal))

/-- A sink that takes everything receives the pieces one after another. -/
theorem write_unlimited (refusal : String) (pieces : List Piece) :
    write { room? := none, refusal } pieces = (pieces.flatMap Piece.bytes, none) := by
  induction pieces with
  | nil => rfl
  | cons p rest ih => simp [write, ih]

end Sink

end DeclTags
