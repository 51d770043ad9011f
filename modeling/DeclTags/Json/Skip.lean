import DeclTags.Json.Value

/-!
# Values that do not matter

A value that nobody asked for still has to be JSON, and it has to be known
where it ends. It may be nested to any depth, so the brackets that are open
are kept in a list, innermost first.
-/

namespace DeclTags

namespace Json

/-- The brackets around a value. -/
inductive Bracket
  /-- A list. -/
  | list
  /-- An object. -/
  | object
deriving DecidableEq

/-- The byte that closes a bracket. -/
def Bracket.closing : Bracket → UInt8
  | list => Ascii.closeBracket
  | object => Ascii.closeBrace

/-- The name of a member of an object and the colon behind it, where neither
matters. -/
def skipName : Reader Unit := fun text =>
  match h : skipSpace text with
  | [] => .error .truncated
  | b :: rest =>
    if b = Ascii.quote then
      match stringTail true rest with
      | .error flaw => .error flaw
      | .ok x =>
        match colon x.rest with
        | .error flaw => .error flaw
        | .ok y => .ok ⟨(), y.rest,
            Nat.lt_trans y.shorter (Nat.lt_trans x.shorter (length_lt_of_skipSpace h))⟩
    else .error .malformed

/-- What precedes a value between brackets: nothing in a list, its name in an
object. -/
def skipLabel (b : Bracket) (text : Bytes) :
    Except Flaw { rest : Bytes // rest.length ≤ text.length } :=
  match b with
  | .list => word [] text
  | .object => (skipName text).map fun x => ⟨x.rest, x.length_rest_le⟩

/-- A value without parts that does not matter, behind its first byte. -/
def skipSimple (b : UInt8) (rest : Bytes) :
    Except Flaw { r : Bytes // r.length ≤ rest.length } :=
  match wordOf? b with
  | some w => word w.tail rest
  | none =>
    if b = Ascii.dash then
      (number .malformed rest).map fun x => ⟨x.rest, Nat.le_of_lt x.shorter⟩
    else if isDigit b then
      (number .malformed (b :: rest)).map fun x => ⟨x.rest, Nat.le_of_lt_succ x.shorter⟩
    else if b = Ascii.quote then
      (stringTail true rest).map fun x => ⟨x.rest, Nat.le_of_lt x.shorter⟩
    else .error .malformed

/-- The bracket that a byte opens. -/
def Bracket.openedBy? (b : UInt8) : Option Bracket :=
  if b = Ascii.openBracket then some .list else if b = Ascii.openBrace then some .object else none

mutual

/-- A value that does not matter, and the rest of the brackets around it,
innermost first. -/
def skipValue (around : List Bracket) (text : Bytes) : Except Flaw (Read Unit text) :=
  match h : skipSpace text with
  | [] => .error .truncated
  | b :: rest =>
    match Bracket.openedBy? b with
    | none =>
      match skipSimple b rest with
      | .error flaw => .error flaw
      | .ok r =>
        (skipBehind around r.1).map fun s =>
          ⟨(), s.1, Nat.lt_of_le_of_lt (Nat.le_trans s.2 r.2) (length_lt_of_skipSpace h)⟩
    | some bracket =>
      match hr : skipSpace rest with
      | [] => .error .truncated
      | c :: inside =>
        if c = bracket.closing then
          (skipBehind around inside).map fun s =>
            ⟨(), s.1, Nat.lt_trans (Nat.lt_of_le_of_lt s.2 (length_lt_of_skipSpace hr))
              (length_lt_of_skipSpace h)⟩
        else
          match skipLabel bracket rest with
          | .error flaw => .error flaw
          | .ok r =>
            (skipValue (bracket :: around) r.1).map
              (·.widen (Nat.le_trans r.2 (Nat.le_of_lt (length_lt_of_skipSpace h))))
termination_by text.length
decreasing_by
  · exact Nat.lt_of_le_of_lt r.2 (length_lt_of_skipSpace h)
  · exact Nat.lt_trans (length_lt_of_skipSpace hr) (length_lt_of_skipSpace h)
  · exact Nat.lt_of_le_of_lt r.2 (length_lt_of_skipSpace h)

/-- The rest of some brackets behind a value in the innermost one. -/
def skipBehind (around : List Bracket) (text : Bytes) :
    Except Flaw { rest : Bytes // rest.length ≤ text.length } :=
  match around with
  | [] => .ok ⟨text, Nat.le_refl _⟩
  | bracket :: outer =>
    match h : skipSpace text with
    | [] => .error .truncated
    | b :: rest =>
      if b = Ascii.comma then
        match skipLabel bracket rest with
        | .error flaw => .error flaw
        | .ok r =>
          (skipValue (bracket :: outer) r.1).map fun x =>
            ⟨x.rest, Nat.le_of_lt (Nat.lt_trans (Nat.lt_of_lt_of_le x.shorter r.2)
              (length_lt_of_skipSpace h))⟩
      else if b = bracket.closing then
        (skipBehind outer rest).map fun s =>
          ⟨s.1, Nat.le_of_lt (Nat.lt_of_le_of_lt s.2 (length_lt_of_skipSpace h))⟩
      else .error .malformed
termination_by text.length
decreasing_by
  · exact Nat.lt_of_le_of_lt r.2 (length_lt_of_skipSpace h)
  · exact length_lt_of_skipSpace h

end

/-- **A value of any type**, which does not matter. -/
def ignored : Reader Unit := skipValue []

end Json

end DeclTags
