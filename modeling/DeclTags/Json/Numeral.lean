import DeclTags.Alphabet
import DeclTags.Ascii
import DeclTags.Json.Reader

/-!
# Reading numbers

No number is wanted anywhere, but one may stand where something else is, and
then it makes a difference whether it is one. A number is read as it is
written, digit by digit; what it comes to is looked at elsewhere
(`DeclTags.Json.Magnitude`).
-/

namespace DeclTags

namespace Json

/-- **A number as it is written**, without its sign. -/
structure Numeral where
  /-- The digits before the point. -/
  whole : Bytes
  /-- The digits behind the point. -/
  fraction : Bytes := []
  /-- The exponent. -/
  exponent : Int := 0
deriving DecidableEq

/-- The value of a digit. -/
def digitValue (b : UInt8) : Nat := b.toNat - Ascii.zero.toNat

/-- The value of some digits. -/
def digitsValue (digits : Bytes) : Nat := digits.foldl (fun n b => n * 10 + digitValue b) 0

/-- The digits at the head of a text, of which there has to be at least one.
A text that ends instead has the flaw `atEnd`. -/
def digits (atEnd : Flaw) : Reader Bytes
  | [] => .error atEnd
  | b :: rest =>
    if isDigit b then
      .ok ⟨b :: rest.takeWhile isDigit, rest.dropWhile isDigit,
        Nat.lt_succ_of_le (List.dropWhile_suffix isDigit).length_le⟩
    else .error .malformed

/-- The integer behind the letter of an exponent, which may have a sign. -/
def signedDigits (atEnd : Flaw) : Reader Int
  | Ascii.dash :: rest => do
    let x ← digits atEnd rest
    return ⟨-digitsValue x.value, x.rest, Nat.lt_succ_of_lt x.shorter⟩
  | Ascii.plus :: rest => do
    let x ← digits atEnd rest
    return ⟨digitsValue x.value, x.rest, Nat.lt_succ_of_lt x.shorter⟩
  | text => (digits atEnd).map (fun ds => (digitsValue ds : Int)) text

/-- A number with the exponent that follows it, if one does. -/
def withExponent (atEnd : Flaw) (text : Bytes) (x : Read Numeral text) :
    Except Flaw (Read Numeral text) :=
  match h : x.rest with
  | [] => .ok x
  | e :: rest =>
    if e = 0x45 ∨ e = 0x65 then do
      let y ← signedDigits atEnd rest
      have : y.rest.length < text.length := by
        have hx := x.shorter
        have hy := y.shorter
        rw [h, List.length_cons] at hx
        omega
      return ⟨{ x.value with exponent := y.value }, y.rest, this⟩
    else .ok x

/-- **A number behind its sign.** It does not start with a zero, unless that
is all there is before the point. -/
def number (atEnd : Flaw) : Reader Numeral := fun text => do
  let x ← digits atEnd text
  if x.value.head? = some Ascii.zero ∧ x.value.length ≠ 1 then .error .malformed
  else
    match h : x.rest with
    | Ascii.dot :: rest => do
      let y ← digits atEnd rest
      have : y.rest.length < text.length := by
        have hx := x.shorter
        have hy := y.shorter
        rw [h, List.length_cons] at hx
        omega
      withExponent atEnd text ⟨{ whole := x.value, fraction := y.value }, y.rest, this⟩
    | _ => withExponent atEnd text ⟨{ whole := x.value }, x.rest, x.shorter⟩

end Json

end DeclTags
