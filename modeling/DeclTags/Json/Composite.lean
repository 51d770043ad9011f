import DeclTags.Json.Value

/-!
# Reading lists and objects

A list has elements of one type, or a fixed number of components of
different ones. An object has named members, and what a member means is up
to whoever reads the object. A record of this library is written as an
object, or as the list of its components.
-/

namespace DeclTags

namespace Json

variable {α σ : Type}

/-! ## Lists -/

/-- What stands at the next position of a list. -/
inductive Position (text : Bytes)
  /-- The end of the list, and what is behind it. -/
  | close (rest : Bytes) (shorter : rest.length < text.length)
  /-- An element. -/
  | element (start : Bytes) (shorter : start.length ≤ text.length)

/-- The next position of a list, the first one or a later one. A comma has to
stand before every element but the first, and an element behind every comma. -/
def position (isFirst : Bool) (text : Bytes) : Except Flaw (Position text) :=
  match h : skipSpace text with
  | [] => .error .truncated
  | b :: rest =>
    if b = Ascii.closeBracket then .ok (.close rest (length_lt_of_skipSpace h))
    else if isFirst then .ok (.element (b :: rest) (h ▸ length_skipSpace_le text))
    else if b = Ascii.comma then
      match hr : skipSpace rest with
      | [] => .error .truncated
      | c :: start =>
        if c = Ascii.closeBracket then .error .malformed
        else .ok (.element (c :: start)
          (Nat.le_trans (hr ▸ length_skipSpace_le rest) (Nat.le_of_lt (length_lt_of_skipSpace h))))
    else .error .malformed

/-- The elements of a list from a position on, to its end. -/
def elements (item : Reader α) (isFirst : Bool) (text : Bytes) :
    Except Flaw (Read (List α) text) :=
  match position isFirst text with
  | .error flaw => .error flaw
  | .ok (.close rest shorter) => .ok ⟨[], rest, shorter⟩
  | .ok (.element start le) =>
    match item start with
    | .error flaw => .error flaw
    | .ok x =>
      match elements item false x.rest with
      | .error flaw => .error flaw
      | .ok xs => .ok ⟨x.value :: xs.value, xs.rest,
          Nat.lt_of_lt_of_le (Nat.lt_trans xs.shorter x.shorter) le⟩
termination_by text.length
decreasing_by exact Nat.lt_of_lt_of_le x.shorter le

/-- **A list.** -/
def list (item : Reader α) : Reader (List α) := behind Ascii.openBracket (elements item true)

/-- One component of a list of fixed length. A list without it is of another
type. -/
def component (isFirst : Bool) (item : Reader α) : Reader α := fun text =>
  match position isFirst text with
  | .error flaw => .error flaw
  | .ok (.close _ _) => .error .unfit
  | .ok (.element start le) => (item start).map (·.widen le)

/-- The end of a list of fixed length. -/
def componentsEnd : Reader Unit := fun text =>
  match h : skipSpace text with
  | [] => .error .truncated
  | b :: rest =>
    if b = Ascii.closeBracket then .ok ⟨(), rest, length_lt_of_skipSpace h⟩ else .error .malformed

/-! ## Objects -/

/-- The next member of an object, or its end. -/
inductive Member (text : Bytes)
  /-- The end of the object, and what is behind it. -/
  | close (rest : Bytes) (shorter : rest.length < text.length)
  /-- The name of a member behind its opening quote. -/
  | name (tail : Bytes) (shorter : tail.length < text.length)

/-- The next member of an object, the first one or a later one. -/
def member (isFirst : Bool) (text : Bytes) : Except Flaw (Member text) :=
  match h : skipSpace text with
  | [] => .error .truncated
  | b :: rest =>
    if b = Ascii.closeBrace then .ok (.close rest (length_lt_of_skipSpace h))
    else if isFirst then
      if b = Ascii.quote then .ok (.name rest (length_lt_of_skipSpace h)) else .error .malformed
    else if b = Ascii.comma then
      match hr : skipSpace rest with
      | [] => .error .truncated
      | c :: tail =>
        if c = Ascii.quote then
          .ok (.name tail (Nat.lt_trans (length_lt_of_skipSpace hr) (length_lt_of_skipSpace h)))
        else .error .malformed
    else .error .malformed

/-- The members of an object from one of them on, to its end. What a member
does to the state is asked before its value is read, so a member that may not
occur is a flaw whatever its value. -/
def members (field : σ → String → Except Flaw (Reader σ)) (isFirst : Bool) (state : σ)
    (text : Bytes) : Except Flaw (Read σ text) :=
  match member isFirst text with
  | .error flaw => .error flaw
  | .ok (.close rest shorter) => .ok ⟨state, rest, shorter⟩
  | .ok (.name tail shorter) =>
    match stringTail false tail with
    | .error flaw => .error flaw
    | .ok n =>
      match field state (Utf8.lossy n.value) with
      | .error flaw => .error flaw
      | .ok r =>
        match (colon.andThen fun _ => r) n.rest with
        | .error flaw => .error flaw
        | .ok x =>
          match members field false x.value x.rest with
          | .error flaw => .error flaw
          | .ok y => .ok ⟨y.value, y.rest, Nat.lt_trans y.shorter
              (Nat.lt_trans x.shorter (Nat.lt_trans n.shorter shorter))⟩
termination_by text.length
decreasing_by exact Nat.lt_trans x.shorter (Nat.lt_trans n.shorter shorter)

/-- **A record**: an object of named members, which are gathered in a state,
or a list of its components in order. -/
def record (field : σ → String → Except Flaw (Reader σ)) (start : σ)
    (finish : σ → Except Flaw α) (components : Reader α) : Reader α := fun text =>
  match h : skipSpace text with
  | [] => .error .truncated
  | b :: rest =>
    if b = Ascii.openBracket then
      (components rest).map (·.widen (length_le_of_skipSpace h))
    else if b = Ascii.openBrace then
      (Reader.check finish (members field true start) rest).map
        (·.widen (length_le_of_skipSpace h))
    else .error (mismatch (b :: rest))

end Json

end DeclTags
