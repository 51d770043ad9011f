import DeclTags.Ascii
import DeclTags.Json.Reader

/-!
# Reading strings

A string is read up to its closing quote, and its escapes are replaced by
what they stand for. A character outside the first plane may be written as a
pair of surrogates; a surrogate without its other half names no character. A
string that does not matter is read the same way, except that nobody asks
what its escapes would name.
-/

namespace DeclTags

namespace Json

/-- The value of a hexadecimal digit. -/
def hexValue? (b : UInt8) : Option Nat :=
  if 0x30 ≤ b ∧ b ≤ 0x39 then some (b.toNat - 0x30)
  else if 0x41 ≤ b ∧ b ≤ 0x46 then some (b.toNat - 0x37)
  else if 0x61 ≤ b ∧ b ≤ 0x66 then some (b.toNat - 0x57)
  else none

/-- Four hexadecimal digits, as a number. -/
def hexFour : Reader Nat
  | a :: b :: c :: d :: rest =>
    match hexValue? a, hexValue? b, hexValue? c, hexValue? d with
    | some a, some b, some c, some d =>
      .ok ⟨((a * 16 + b) * 16 + c) * 16 + d, rest, by simp only [List.length_cons]; omega⟩
    | _, _, _, _ => .error .malformed
  | _ => .error .truncated

/-- One given byte, inside a string. -/
def stringByte (b : UInt8) : Reader Unit
  | [] => .error .truncated
  | c :: rest => if c = b then .ok ⟨(), rest, Nat.lt_succ_self _⟩ else .error .malformed

/-- The second half of a character that is written as a pair of surrogates. -/
def lowSurrogate (high : Nat) : Reader Nat :=
  (stringByte Ascii.backslash).andThen fun _ => (stringByte 0x75).andThen fun _ =>
    hexFour.check fun low =>
      if 0xDC00 ≤ low ∧ low ≤ 0xDFFF then
        .ok (0x10000 + (high - 0xD800) * 0x400 + (low - 0xDC00))
      else .error .malformed

/-- The code point that four digits stand for, with four more if they are the
first half of a pair of surrogates. -/
def codePoint : Reader Nat := fun text => do
  let x ← hexFour text
  if 0xDC00 ≤ x.value ∧ x.value ≤ 0xDFFF then .error .malformed
  else if 0xD800 ≤ x.value ∧ x.value ≤ 0xDBFF then
    let y ← lowSurrogate x.value x.rest
    return y.widen (Nat.le_of_lt x.shorter)
  else return x

/-- The character of a short escape. -/
def shortEscape? (b : UInt8) : Option Char :=
  match b.toNat with
  | 0x22 => some '"'
  | 0x5C => some '\\'
  | 0x2F => some '/'
  | 0x62 => some '\x08'
  | 0x66 => some '\x0c'
  | 0x6E => some '\n'
  | 0x72 => some '\r'
  | 0x74 => some '\t'
  | _ => none

/-- An escape behind its backslash, as the bytes it stands for. When strings
are `skipped` the digits of an escape need not name a character. -/
def unescape (skipped : Bool) : Reader Bytes
  | [] => .error .truncated
  | b :: rest =>
    if b = 0x75 then do
      let x ← if skipped then hexFour rest else codePoint rest
      return ⟨String.utf8EncodeChar (Char.ofNat x.value), x.rest, Nat.lt_succ_of_lt x.shorter⟩
    else
      match shortEscape? b with
      | some c => .ok ⟨String.utf8EncodeChar c, rest, Nat.lt_succ_self _⟩
      | none => .error .malformed

/-- **A string behind its opening quote**, as the bytes of its text. -/
def stringTail (skipped : Bool) (text : Bytes) : Except Flaw (Read Bytes text) :=
  match text with
  | [] => .error .truncated
  | b :: rest =>
    if b = Ascii.quote then .ok ⟨[], rest, Nat.lt_succ_self _⟩
    else if b = Ascii.backslash then
      match unescape skipped rest with
      | .error flaw => .error flaw
      | .ok x =>
        match stringTail skipped x.rest with
        | .error flaw => .error flaw
        | .ok y => .ok ⟨x.value ++ y.value, y.rest,
            Nat.lt_succ_of_lt (Nat.lt_trans y.shorter x.shorter)⟩
    else if b < 0x20 then .error .malformed
    else
      match stringTail skipped rest with
      | .error flaw => .error flaw
      | .ok y => .ok ⟨b :: y.value, y.rest, Nat.lt_succ_of_lt y.shorter⟩
termination_by text.length
decreasing_by
  · exact Nat.lt_succ_of_lt x.shorter
  · exact Nat.lt_succ_self _

end Json

end DeclTags
