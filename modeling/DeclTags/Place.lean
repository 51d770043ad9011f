import DeclTags.Alphabet

/-!
# Places in a line

A scan of a line is always at some place of it. A place is the line cut in
two: the bytes already read, nearest first, and the bytes still to come.
Reading on moves bytes from one side to the other, so a place never leaves
its line, and `line` – both sides put together again – is the same at every
place of one scan. All movement of a scan is `Place.forward`. Whoever names the
number of bytes to move by is at the mercy of machine words (`Place.advance?`):
their sum with the offset may be more than a word holds.

Looking ahead is a question about the bytes to come, and `Alphabet` answers
it. Looking back is the harder direction, because UTF-8 is decoded from left
to right. Only the character right before the place matters, and no
character is longer than four bytes, so decoding the last four bytes read is
enough: a window that starts in the middle of a character only makes the
character before its end ill-formed, never the last one.
-/

namespace DeclTags

/-- **What becomes of a sum that no machine word holds.** Which of the two it
is depends on how the program is built. -/
inductive Overflow
  /-- The program breaks off. -/
  | trap
  /-- The sum is taken modulo `2 ^ 64`. -/
  | wrap
deriving DecidableEq

/-- **A sum in machine words**, unless it breaks off. -/
def Overflow.sum? (o : Overflow) (m n : Nat) : Option Nat :=
  if m + n < UInt64.size then some (m + n)
  else
    match o with
    | trap => none
    | wrap => some ((m + n) % UInt64.size)

theorem Overflow.sum?_of_lt (o : Overflow) {m n : Nat} (h : m + n < UInt64.size) :
    o.sum? m n = some (m + n) :=
  if_pos h

theorem Overflow.sum?_trap {m n : Nat} (h : UInt64.size ≤ m + n) : trap.sum? m n = none :=
  if_neg (Nat.not_lt.mpr h)

theorem Overflow.sum?_wrap {m n : Nat} (h : UInt64.size ≤ m + n) :
    wrap.sum? m n = some ((m + n) % UInt64.size) :=
  if_neg (Nat.not_lt.mpr h)

/-- **A place in a line**: the bytes before it, nearest first, and the bytes
after it. The number of the former is kept beside them, so that asking for it
does not count them again. -/
structure Place where
  /-- What has been read, the last byte first. -/
  before : Bytes
  /-- What is still to be read. -/
  after : Bytes
  /-- The number of bytes that have been read. -/
  offset : Nat
  /-- The number is right. -/
  offset_eq : offset = before.length
deriving DecidableEq

namespace Place

/-- The place before all of some bytes. -/
def ofBytes (bytes : Bytes) : Place := ⟨[], bytes, 0, rfl⟩

/-- The start of a line. A NUL byte ends the line, wherever it stands. -/
def start (line : Bytes) : Place := ofBytes (line.takeWhile (· ≠ 0))

/-- The line that a place is in. -/
def line (p : Place) : Bytes := p.before.reverse ++ p.after

/-- Has the whole line been read? -/
def atEnd (p : Place) : Bool := p.after.isEmpty

/-- The byte at a place. -/
def here? (p : Place) : Option UInt8 := p.after.head?

/-! ## Moving on -/

/-- **The place `n` bytes further on**, or the end of the line if that is
nearer. -/
def forward (n : Nat) (p : Place) : Place :=
  let passed := p.after.take n
  ⟨passed.reverse ++ p.before, p.after.drop n, p.offset + passed.length, by
    simp [p.offset_eq, Nat.add_comm]⟩

/-- The end of the line. -/
def toEnd (p : Place) : Place := p.forward p.after.length

/-- The place behind the blanks that start here. -/
def skipBlanks (p : Place) : Place := p.forward (blanksAt p.after)

/-- The word that starts here. -/
def word (p : Place) : Bytes := wordAt p.after

/-- The place behind the word that starts here. -/
def skipWord (p : Place) : Place := p.forward p.word.length

/-- The place of the same line at an offset, or the end of the line if the
offset lies beyond it. -/
def atOffset (n : Nat) (p : Place) : Place := (ofBytes p.line).forward n

/-- **A move by a machine word.** The offset to go to is computed as a machine
word, and only then compared with the end of the line. So a move by less than
the distance to `2 ^ 64` goes forward and stops at the end of the line, and
what a move by more than that does is a matter of the overflow. -/
def advance? (o : Overflow) (n : UInt64) (p : Place) : Option Place :=
  (o.sum? p.offset n.toNat).map fun target => p.atOffset target

/-! ## Searching -/

/-- Does the rest of the line start with these bytes? -/
def startsWith (p : Place) (bytes : Bytes) : Bool := bytes.isPrefixOf p.after

/-- Where the bytes `b :: more` first occur in some bytes. -/
def occurrence? (b : UInt8) (more : Bytes) : Bytes → Option Nat
  | [] => none
  | c :: rest =>
    if (b :: more).isPrefixOf (c :: rest) then some 0
    else (occurrence? b more rest).map (· + 1)

/-- **The place behind the next occurrence** of the bytes `b :: more`, and
whether there is one. Without one it is the end of the line. -/
def skipPast (b : UInt8) (more : Bytes) (p : Place) : Place × Bool :=
  match occurrence? b more p.after with
  | some n => (p.forward (n + (more.length + 1)), true)
  | none => (p.toEnd, false)

/-- The search for any bytes. There is no next occurrence of nothing, so a
search for no bytes is refused. -/
def skipPast? (bytes : Bytes) (p : Place) : Option (Place × Bool) :=
  match bytes with
  | [] => none
  | b :: more => some (p.skipPast b more)

/-! ## Words around a place -/

/-- **The character right before a place**, if the bytes there are
well-formed. Four bytes are enough to find it. -/
def previous? (p : Place) : Option Char :=
  (Utf8.segments (p.before.take 4).reverse).getLast?.bind Utf8.Segment.char?

/-- **May a word start here?** It may at the start of the line, after a byte
that no word goes on with, and after a blank character outside ASCII, whose
last byte by itself would look like one of a word. -/
def atWordStart (p : Place) : Bool :=
  match p.before with
  | [] => true
  | b :: _ => !continuesWord b || (0x80 ≤ b && p.previous?.any isWideBlank)

/-- May a declared name start here? -/
def atNameStart (cyrillic : Bool) (p : Place) : Bool := startsName cyrillic p.after

/-- **Does this word stand here, whatever its letter case?** The word is
given in small letters. It has to end where the word on the line ends, so
that `varx` is not `var`. -/
def matchesWord (word : Bytes) (p : Place) : Bool :=
  let window := p.after.take word.length
  window.length == word.length && !wordGoesOn (p.after.drop word.length) &&
    foldCase window == word

/-! ## Small lemmas -/

/-- A place is given by the bytes on its two sides. -/
@[ext] theorem ext {p q : Place} (hb : p.before = q.before) (ha : p.after = q.after) : p = q := by
  obtain ⟨before, after, _, rfl⟩ := p
  obtain ⟨before', after', _, rfl⟩ := q
  subst hb ha
  rfl

@[simp] theorem after_forward (n : Nat) (p : Place) : (p.forward n).after = p.after.drop n := rfl

/-- **Moving on stays in the line.** -/
@[simp] theorem line_forward (n : Nat) (p : Place) : (p.forward n).line = p.line := by
  simp [line, forward]

@[simp] theorem offset_forward (n : Nat) (p : Place) :
    (p.forward n).offset = p.offset + min n p.after.length := by
  simp [forward]

/-- A move by at least one byte shortens what is left, if anything is. -/
theorem length_after_forward_lt {p : Place} {n : Nat} (hn : 0 < n) (h : p.after ≠ []) :
    (p.forward n).after.length < p.after.length := by
  have := List.length_pos_iff.mpr h
  rw [after_forward, List.length_drop]
  omega

@[simp] theorem after_toEnd (p : Place) : p.toEnd.after = [] := List.drop_length

/-- A search never stops where it started, unless that is the end. -/
theorem length_after_skipPast_lt {b : UInt8} {more : Bytes} {p : Place} (h : p.after ≠ []) :
    (p.skipPast b more).1.after.length < p.after.length := by
  unfold skipPast
  split
  · exact length_after_forward_lt (by omega) h
  · simpa using List.length_pos_iff.mpr h

/-- Where a name may start, the word there is not empty. -/
theorem word_ne_nil_of_atNameStart {cyrillic : Bool} {p : Place}
    (h : p.atNameStart cyrillic = true) : p.word ≠ [] := by
  have hw := wordGoesOn_of_startsName h
  unfold word
  match hp : p.after with
  | [] => simp [hp, wordGoesOn] at hw
  | b :: rest => simp [wordAt, ← hp, hw]

/-! ## All places of a line -/

/-- This place and all places after it, up to the end of the line. -/
def onward (p : Place) : List Place :=
  if _h : p.after = [] then [p] else p :: (p.forward 1).onward
termination_by p.after.length
decreasing_by exact length_after_forward_lt Nat.one_pos _h

end Place

end DeclTags
