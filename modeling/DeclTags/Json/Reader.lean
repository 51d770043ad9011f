import DeclTags.Utf8

/-!
# Reading JSON into given types

A text is read for a type: the reader knows at every value which type it
wants, and the first thing that is wrong decides what the flaw is. There are
three. The text may break off (`truncated`); it may not be JSON
(`malformed`); or a value may be JSON of some other type than the wanted one
(`unfit`). A value of the wrong type is a flaw as soon as it is seen, so what
stands behind it does not matter any more, but a number or a string is read
to its end first, because it might not even be one.

A **reader** returns what it has read and the rest of the text, with the proof
that the rest is shorter. Lists and objects of any length are then read by
recursion on the text, and no reader needs a bound on how long it may run.
-/

namespace DeclTags

namespace Json

/-- **What is wrong with a text.** -/
inductive Flaw
  /-- It is not JSON. -/
  | malformed
  /-- It breaks off. -/
  | truncated
  /-- It is JSON, but of another type than the one that is wanted. -/
  | unfit
deriving DecidableEq

/-- **What has been read** from the head of a text. -/
structure Read (α : Type) (text : Bytes) where
  /-- The value. -/
  value : α
  /-- The rest of the text. -/
  rest : Bytes
  /-- Something has been read. -/
  shorter : rest.length < text.length

/-- **A reader** of values of a type. -/
abbrev Reader (α : Type) := (text : Bytes) → Except Flaw (Read α text)

variable {α β : Type}

theorem Read.length_rest_le {text : Bytes} (r : Read α text) : r.rest.length ≤ text.length :=
  Nat.le_of_lt r.shorter

/-- What has been read from a text that continues another one. -/
def Read.widen {text whole : Bytes} (r : Read α text) (h : text.length ≤ whole.length) :
    Read α whole := ⟨r.value, r.rest, Nat.lt_of_lt_of_le r.shorter h⟩

namespace Reader

/-- A reader whose value is changed. -/
def map (f : α → β) (r : Reader α) : Reader β := fun text => do
  let x ← r text
  return ⟨f x.value, x.rest, x.shorter⟩

/-- A reader after another one. -/
def andThen (r : Reader α) (f : α → Reader β) : Reader β := fun text => do
  let x ← r text
  let y ← f x.value x.rest
  return y.widen (Nat.le_of_lt x.shorter)

/-- A reader whose value is checked. -/
def check (f : α → Except Flaw β) (r : Reader α) : Reader β := fun text => do
  let x ← r text
  let y ← f x.value
  return ⟨y, x.rest, x.shorter⟩

end Reader

/-! ## Blanks and words -/

/-- The blanks of JSON. -/
def isSpace (b : UInt8) : Bool := b == 0x20 || b == 0x09 || b == 0x0A || b == 0x0D

/-- A text without the blanks at its head. -/
def skipSpace (text : Bytes) : Bytes := text.dropWhile isSpace

theorem length_skipSpace_le (text : Bytes) : (skipSpace text).length ≤ text.length :=
  (List.dropWhile_suffix isSpace).length_le

/-- What is left of a text behind the blanks and one more byte. -/
theorem length_lt_of_skipSpace {text rest : Bytes} {b : UInt8}
    (h : skipSpace text = b :: rest) : rest.length < text.length := by
  have := length_skipSpace_le text
  rw [h, List.length_cons] at this
  exact this

theorem length_le_of_skipSpace {text rest : Bytes} {b : UInt8}
    (h : skipSpace text = b :: rest) : rest.length ≤ text.length :=
  Nat.le_of_lt (length_lt_of_skipSpace h)

/-- The rest of a text behind the given bytes. -/
def word : (bytes text : Bytes) → Except Flaw { rest : Bytes // rest.length ≤ text.length }
  | [], text => .ok ⟨text, Nat.le_refl _⟩
  | _ :: _, [] => .error .truncated
  | b :: more, c :: text =>
    if b = c then (word more text).map fun r => ⟨r.1, Nat.le_succ_of_le r.2⟩
    else .error .malformed

/-- **A word that is a value**, letter by letter. -/
structure Word where
  /-- The first letter, by which the word is recognized. -/
  first : UInt8
  /-- The other letters. -/
  tail : Bytes
deriving DecidableEq

/-- The word `null`. -/
def nullWord : Word := ⟨0x6E, [0x75, 0x6C, 0x6C]⟩

/-- The word `true`. -/
def trueWord : Word := ⟨0x74, [0x72, 0x75, 0x65]⟩

/-- The word `false`. -/
def falseWord : Word := ⟨0x66, [0x61, 0x6C, 0x73, 0x65]⟩

/-- The word that a byte starts. -/
def wordOf? (b : UInt8) : Option Word := [nullWord, trueWord, falseWord].find? (·.first == b)

/-! ## Whole texts -/

/-- **The value of a whole text.** Nothing but blanks may follow it. -/
def readAll (r : Reader α) (text : Bytes) : Except Flaw α := do
  let x ← r text
  if (skipSpace x.rest).isEmpty then return x.value else .error .malformed

end Json

end DeclTags
