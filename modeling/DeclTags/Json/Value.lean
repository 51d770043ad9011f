import DeclTags.Json.Magnitude
import DeclTags.Json.Text

/-!
# Reading values of simple types

A value of the wanted type is read. A value of another type is a flaw, but
which one depends on how far the value is JSON at all (`mismatch`): a list or
an object counts as one from its first byte on, a word, a number or a string
only when it has been read to its end.
-/

namespace DeclTags

namespace Json

variable {α : Type}

/-! ## Values of other types -/

/-- A flaw that has been met, or else the flaw of a value of another type. -/
def otherwiseUnfit : Except Flaw α → Flaw
  | .error flaw => flaw
  | .ok _ => .unfit

/-- The flaw of a number where none is wanted. One that is too large for any
type of numbers is no JSON here. -/
def numberFlaw (text : Bytes) : Flaw :=
  match number .truncated text with
  | .error flaw => flaw
  | .ok x => if x.value.isTooLarge then .malformed else .unfit

/-- **The flaw of a value of another type** than the wanted one. The value
stands behind no blanks. -/
def mismatch : Bytes → Flaw
  | [] => .truncated
  | b :: rest =>
    match wordOf? b with
    | some w => otherwiseUnfit (word w.tail rest)
    | none =>
      if b = Ascii.dash then numberFlaw rest
      else if isDigit b then numberFlaw (b :: rest)
      else if b = Ascii.quote then otherwiseUnfit (stringTail false rest)
      else if b = Ascii.openBracket ∨ b = Ascii.openBrace then .unfit
      else .malformed

/-! ## Values of the wanted type -/

/-- A reader behind the blanks of a text and a given byte. If another byte
stands there, the value is of another type. -/
def behind (b : UInt8) (r : Reader α) : Reader α := fun text =>
  match h : skipSpace text with
  | [] => .error .truncated
  | c :: rest =>
    if c = b then (r rest).map (·.widen (Nat.le_of_lt (length_lt_of_skipSpace h)))
    else .error (mismatch (c :: rest))

/-- **A string.** -/
def string : Reader String := (behind Ascii.quote (stringTail false)).map Utf8.lossy

/-- A character: a string of one. -/
def char : Reader Char :=
  string.check fun s =>
    match s.toList with
    | [c] => .ok c
    | _ => .error .unfit

/-- A value that is written as a word, behind the blanks of a text. -/
def wordValue {text rest : Bytes} {b : UInt8} (h : skipSpace text = b :: rest) (w : Word)
    (value : α) : Except Flaw (Read α text) :=
  (word w.tail rest).map fun r =>
    ⟨value, r.1, Nat.lt_of_le_of_lt r.2 (length_lt_of_skipSpace h)⟩

/-- **A truth value.** -/
def bool : Reader Bool := fun text =>
  match h : skipSpace text with
  | [] => .error .truncated
  | b :: rest =>
    if b = trueWord.first then wordValue h trueWord true
    else if b = falseWord.first then wordValue h falseWord false
    else .error (mismatch (b :: rest))

/-- The word `null`. -/
def null : Reader Unit := fun text =>
  match h : skipSpace text with
  | [] => .error .truncated
  | b :: rest =>
    if b = nullWord.first then wordValue h nullWord () else .error (mismatch (b :: rest))

/-- A colon between blanks. -/
def colon : Reader Unit := fun text =>
  match h : skipSpace text with
  | [] => .error .truncated
  | b :: rest =>
    if b = Ascii.colon then .ok ⟨(), rest, length_lt_of_skipSpace h⟩ else .error .malformed

end Json

end DeclTags
