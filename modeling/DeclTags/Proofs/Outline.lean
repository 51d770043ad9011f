import DeclTags.Proofs.Keyword
import DeclTags.Proofs.Lexeme

/-!
# The outline of a source

The declarations of a source can be told from its lexemes alone. An
**outline** is what a reader of lexemes has to remember: where it is in a
declaration, and the function it is in. Each lexeme takes it to the next
outline, and a lexeme that is the name of a declaration yields a tag.

A word is read at once and as a whole. It is a keyword or it is not, and a
name is what is left of the word from the first byte at which a name may
start. There are no places, no windows and no looking back here; that the
scan of a line comes to the same thing is proved elsewhere.
-/

namespace DeclTags

open Utf8

/-- The name in a word: what is left of it from where a name may first
start. -/
def nameIn? (cyrillic : Bool) : Bytes → Option Bytes
  | [] => none
  | b :: rest => if startsName cyrillic (b :: rest) then some (b :: rest) else nameIn? cyrillic rest

/-- **What is known between two lexemes.** -/
structure Outline where
  /-- Where the reading is in a declaration. -/
  phase : Phase := .outside
  /-- The function whose body it is in. -/
  enclosing? : Option String := none
deriving DecidableEq

namespace Outline

/-- The phase in which a statement starts. -/
def statementPhase (o : Outline) : Phase := if o.enclosing?.isSome then .body else .outside

/-- The outline behind a mark of punctuation. -/
def afterMark (o : Outline) (b : UInt8) : Outline :=
  if b = Ascii.semicolon then { o with phase := o.statementPhase }
  else if b = Ascii.comma ∧ o.phase = .behindVariable then { o with phase := .beforeVariable }
  else o

/-- The outline behind a keyword. -/
def afterKeyword (o : Outline) : Keyword → Outline
  | .var => { o with phase := .beforeVariable }
  | .sub => { o with phase := .beforeFunction }
  | .endSub => ⟨.outside, none⟩

/-- The outline behind a word on line `line`, and the declaration that the
word is the name of. -/
def afterWord (cyrillic : Bool) (line : Nat) (o : Outline) (w : Bytes) : Outline × Option Tag :=
  match o.phase with
  | .outside =>
    if Keyword.var.Spells w then (o.afterKeyword .var, none)
    else if Keyword.sub.Spells w then (o.afterKeyword .sub, none)
    else (o, none)
  | .body =>
    if Keyword.var.Spells w then (o.afterKeyword .var, none)
    else if Keyword.endSub.Spells w then (o.afterKeyword .endSub, none)
    else (o, none)
  | .beforeFunction =>
    match nameIn? cyrillic w with
    | some name => (⟨.body, some (lossy name)⟩, some ⟨lossy name, .function, line, none⟩)
    | none => (o, none)
  | .beforeVariable =>
    match nameIn? cyrillic w with
    | some name =>
      ({ o with phase := .behindVariable }, some ⟨lossy name, .var, line, o.enclosing?⟩)
    | none => (o, none)
  | .behindVariable => (o, none)

/-- The keywords that a word may be in an outline. -/
def keyword? (o : Outline) (w : Bytes) : Option Keyword :=
  (State.awaited o.phase).find? fun k => k.Spells w

/-- **The next outline**, and the declaration found. -/
def next (cyrillic : Bool) (line : Nat) (o : Outline) : Lexeme → Outline × Option Tag
  | .mark b => (o.afterMark b, none)
  | .word w => o.afterWord cyrillic line w

/-- **The reading of numbered lexemes**: the outline at their end, and the
declarations found on the way. -/
def read (cyrillic : Bool) : Outline → List (Nat × Lexeme) → Outline × List Tag
  | o, [] => (o, [])
  | o, (line, x) :: rest =>
    let here := o.next cyrillic line x
    let later := read cyrillic here.1 rest
    (later.1, here.2.toList ++ later.2)

variable {cyrillic : Bool} {line : Nat} {o : Outline}

theorem afterMark_semicolon (o : Outline) :
    o.afterMark Ascii.semicolon = { o with phase := o.statementPhase } := by
  rw [afterMark, if_pos rfl]

theorem afterMark_comma (h : o.phase = .behindVariable) :
    o.afterMark Ascii.comma = { o with phase := .beforeVariable } := by
  rw [afterMark, if_neg (by decide), if_pos ⟨rfl, h⟩]

/-- Other marks say nothing. -/
theorem afterMark_of_ne {b : UInt8} (hs : b ≠ Ascii.semicolon)
    (hc : ¬ (b = Ascii.comma ∧ o.phase = .behindVariable)) : o.afterMark b = o := by
  rw [afterMark, if_neg hs, if_neg hc]

/-- Between statements a word is a keyword or nothing. -/
theorem afterWord_outside (h : o.phase = .outside ∨ o.phase = .body) (w : Bytes) :
    o.afterWord cyrillic line w = ((o.keyword? w).elim o o.afterKeyword, none) := by
  obtain ⟨phase, enclosing?⟩ := o
  rcases h with h | h
  all_goals
    dsimp only at h
    subst h
    rw [keyword?, afterWord]
    dsimp only [State.awaited]
    rw [List.find?_cons, List.find?_cons, List.find?_nil]
    split
    · rename_i hv
      rw [decide_eq_true hv]
      rfl
    · rename_i hv
      rw [decide_eq_false hv]
      dsimp only
      split
      · rename_i hs
        rw [decide_eq_true hs]
        rfl
      · rename_i hs
        rw [decide_eq_false hs]
        rfl

theorem read_cons (x : Lexeme) (rest : List (Nat × Lexeme)) :
    read cyrillic o ((line, x) :: rest)
      = ((read cyrillic (o.next cyrillic line x).1 rest).1,
        (o.next cyrillic line x).2.toList ++ (read cyrillic (o.next cyrillic line x).1 rest).2) :=
  rfl

theorem read_append (xs ys : List (Nat × Lexeme)) :
    read cyrillic o (xs ++ ys)
      = ((read cyrillic (read cyrillic o xs).1 ys).1,
        (read cyrillic o xs).2 ++ (read cyrillic (read cyrillic o xs).1 ys).2) := by
  induction xs generalizing o with
  | nil => rfl
  | cons x xs ih =>
    obtain ⟨line, x⟩ := x
    rw [List.cons_append, read_cons, read_cons, ih, List.append_assoc]

end Outline

/-- The lexemes of some lines, each with the number of its line; the first
line has the given number. -/
def numbered : Nat → List Bytes → List (Nat × Lexeme)
  | _, [] => []
  | n, line :: rest => (lexemes line).map (n, ·) ++ numbered (n + 1) rest

theorem numbered_append (n : Nat) (xs ys : List Bytes) :
    numbered n (xs ++ ys) = numbered n xs ++ numbered (n + xs.length) ys := by
  induction xs generalizing n with
  | nil => rfl
  | cons l xs ih =>
    rw [List.cons_append, numbered, numbered, ih, List.append_assoc, List.length_cons,
      Nat.add_assoc, Nat.add_comm 1]

/-- **The lexemes of some lines** are lexemes of one of them, and have its
number. -/
theorem of_mem_numbered {n m : Nat} {lines : List Bytes} {x : Lexeme}
    (h : (m, x) ∈ numbered n lines) :
    (n ≤ m ∧ m < n + lines.length) ∧ ∃ l ∈ lines, x ∈ lexemes l := by
  induction lines generalizing n with
  | nil => exact absurd h List.not_mem_nil
  | cons l lines ih =>
    rw [List.length_cons]
    rcases List.mem_append.mp h with h | h
    · obtain ⟨y, hy, he⟩ := List.mem_map.mp h
      obtain ⟨rfl, rfl⟩ := Prod.mk.inj he
      exact ⟨⟨Nat.le_refl _, by omega⟩, l, List.mem_cons_self, hy⟩
    · obtain ⟨⟨hlow, hhigh⟩, l', hl', hx⟩ := ih h
      exact ⟨⟨by omega, by omega⟩, l', List.mem_cons_of_mem l hl', hx⟩

/-- **The declarations of a source**, read off the lexemes of its lines. -/
def outlineTags (cyrillic : Bool) (lines : List Bytes) : List Tag :=
  (Outline.read cyrillic {} (numbered 1 lines)).2

/-! ## Names in words -/

/-- Whether a name may start at a byte of a word does not depend on what
stands behind the word. -/
theorem startsName_append (cyrillic : Bool) (b : UInt8) (w : Bytes) {rest : Bytes}
    (h : opensAfresh rest = true) :
    startsName cyrillic (b :: (w ++ rest)) = startsName cyrillic (b :: w) := by
  rw [startsName, startsName, startsCyrillic, startsCyrillic, first_append_of_opensAfresh b w h]

theorem nameIn?_of_startsName {cyrillic : Bool} {w : Bytes} (h : startsName cyrillic w = true) :
    nameIn? cyrillic w = some w := by
  match w with
  | [] => exact absurd h (by simp [startsName])
  | b :: w => rw [nameIn?, if_pos h]

/-- The name of a declaration is not empty. -/
theorem lossy_ne_empty {bytes : Bytes} (h : bytes ≠ []) : (lossy bytes).isEmpty = false := by
  unfold lossy
  cases hs : segments bytes with
  | nil => exact absurd hs (segments_ne_nil h)
  | cons s rest => simp

end DeclTags
