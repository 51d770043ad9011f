/-!
# Byte strings read as UTF-8

A source file is a byte string first and text only by convention: nothing
stops it from holding half a character, and a tool that lists declarations
has to go on after one. Decoding is therefore total. It cuts a byte string
into **segments**, each of which is either the encoding of one character or
a *maximal ill-formed part*: the longest run of bytes that starts a
character, when the byte after it does not continue that character.

A segment keeps its bytes beside the character they encode. That way the
segments of a byte string always concatenate to it (`flatMap_segments`),
whatever the bytes are, and a reading that changes the characters – decoding
with substitution, or folding letter case – is a map over segments.

The admissible bytes are those of the well-formed sequences of the Unicode
standard: the first byte says how many bytes follow and which values the
first of them may take, and every later one is any continuation byte. The
restriction on the second byte is what keeps out overlong forms, surrogates
and code points past the last plane.
-/

namespace DeclTags

/-- A byte string. -/
abbrev Bytes := List UInt8

namespace Utf8

/-- **What a first byte promises**: how many bytes follow it, the range of
the first of these, and the bits it contributes to the code point. -/
structure Lead where
  /-- The number of bytes that follow. -/
  follow : Nat
  /-- The least admissible second byte. -/
  low : UInt8
  /-- The greatest admissible second byte. -/
  high : UInt8
  /-- The leading bits of the code point. -/
  payload : Nat
deriving DecidableEq

/-- The first bytes of well-formed sequences. A continuation byte, `C0`,
`C1` and everything from `F5` on start none. -/
def lead? (b : UInt8) : Option Lead :=
  if b ≤ 0x7F then some ⟨0, 0x80, 0xBF, b.toNat⟩
  else if b < 0xC2 then none
  else if b ≤ 0xDF then some ⟨1, 0x80, 0xBF, b.toNat - 0xC0⟩
  else if b = 0xE0 then some ⟨2, 0xA0, 0xBF, 0⟩
  else if b = 0xED then some ⟨2, 0x80, 0x9F, 0xD⟩
  else if b ≤ 0xEF then some ⟨2, 0x80, 0xBF, b.toNat - 0xE0⟩
  else if b = 0xF0 then some ⟨3, 0x90, 0xBF, 0⟩
  else if b ≤ 0xF3 then some ⟨3, 0x80, 0xBF, b.toNat - 0xF0⟩
  else if b = 0xF4 then some ⟨3, 0x80, 0x8F, 4⟩
  else none

/-- The bytes at the head of the input that continue a character: at most
`n`, the first between `low` and `high`, the others any continuation byte. -/
def trail : Nat → UInt8 → UInt8 → Bytes → Bytes
  | n + 1, low, high, b :: rest =>
    if low ≤ b ∧ b ≤ high then b :: trail n 0x80 0xBF rest else []
  | _, _, _, _ => []

/-- The code point of a first byte's bits and the bytes that follow. -/
def codePoint (payload : Nat) (tail : Bytes) : Nat :=
  tail.foldl (fun n b => n * 64 + (b.toNat - 0x80)) payload

/-- **A segment of a byte string**: the bytes it covers and the character
they encode, or no character for an ill-formed part. -/
structure Segment where
  /-- The bytes covered. -/
  bytes : Bytes
  /-- The character they encode. -/
  char? : Option Char
deriving DecidableEq

/-- The segment that starts with the byte `b`, when `rest` comes after it. -/
def first (b : UInt8) (rest : Bytes) : Segment :=
  match lead? b with
  | none => ⟨[b], none⟩
  | some l =>
    let tail := trail l.follow l.low l.high rest
    ⟨b :: tail,
      if tail.length = l.follow then some (Char.ofNat (codePoint l.payload tail)) else none⟩

/-- **The segments of a byte string**, from left to right. -/
def segments : Bytes → List Segment
  | [] => []
  | b :: rest =>
    let s := first b rest
    s :: segments (rest.drop (s.bytes.length - 1))
termination_by bytes => bytes.length
decreasing_by
  rw [List.length_drop, List.length_cons]
  omega

/-- The bytes of a text in UTF-8. -/
def encode (text : List Char) : Bytes := text.flatMap String.utf8EncodeChar

/-- The bytes of a string in UTF-8. -/
def ofString (text : String) : Bytes := encode text.toList

/-- What a segment reads as: its character, or U+FFFD for an ill-formed
part. -/
def Segment.reading (s : Segment) : Char := s.char?.getD '\uFFFD'

/-- **Decoding with substitution**: each ill-formed part reads as one
U+FFFD, so every byte string has a reading. -/
def lossy (bytes : Bytes) : String := String.ofList ((segments bytes).map Segment.reading)

/-- The text of a byte string that is well-formed throughout. -/
def decode? (bytes : Bytes) : Option String :=
  ((segments bytes).mapM Segment.char?).map String.ofList

/-! ## Segments lose nothing -/

theorem trail_isPrefix (n : Nat) (low high : UInt8) (bytes : Bytes) :
    trail n low high bytes <+: bytes := by
  fun_induction trail n low high bytes with
  | case1 n low high b rest _ ih => exact (List.prefix_cons_inj b).mpr ih
  | case2 => exact List.nil_prefix
  | case3 => exact List.nil_prefix

/-- A segment starts with the byte it is read from and covers bytes of the
input only. -/
theorem first_bytes (b : UInt8) (rest : Bytes) :
    ∃ tail, (first b rest).bytes = b :: tail ∧ tail <+: rest := by
  unfold first
  split
  · exact ⟨[], rfl, List.nil_prefix⟩
  · exact ⟨_, rfl, trail_isPrefix _ _ _ _⟩

/-- **The segments of a byte string concatenate to it.** -/
theorem flatMap_segments (bytes : Bytes) :
    (segments bytes).flatMap Segment.bytes = bytes := by
  fun_induction segments bytes with
  | case1 => rfl
  | case2 b rest s ih =>
    obtain ⟨tail, hs, more, rfl⟩ := first_bytes b rest
    have hd : (tail ++ more).drop (s.bytes.length - 1) = more := by
      simp [s, hs]
    rw [hd] at ih ⊢
    simp [List.flatMap_cons, ih, s, hs]

end Utf8

end DeclTags
