/-!
# Text in columns

Human-readable tables set each cell in a column of some width. A text that is
too long for its column is not cut there, so cells never lose characters; a
cut happens only where a precision asks for it, and before the width is
looked at. Width and precision count characters.
-/

namespace DeclTags

/-- **On which side of a cell the fill goes.** -/
inductive Alignment
  /-- The text first. -/
  | left
  /-- The text last. -/
  | right
  /-- The text in the middle, with an odd fill character on the right. -/
  | center
deriving DecidableEq

/-- **How a cell is set.** -/
structure Column where
  /-- The least number of characters of the cell. -/
  width : Nat
  /-- Where the text goes. -/
  alignment : Alignment := .left
  /-- What the rest of the cell holds. -/
  fill : Char := ' '
  /-- The greatest number of characters of the text that are kept. -/
  precision? : Option Nat := none

namespace Column

/-- The fill on the two sides of a text that leaves `n` characters free. -/
def margins (a : Alignment) (n : Nat) : Nat × Nat :=
  match a with
  | .left => (0, n)
  | .right => (n, 0)
  | .center => (n / 2, n - n / 2)

/-- The part of a text that a column keeps. -/
def kept (c : Column) (text : List Char) : List Char :=
  match c.precision? with
  | some n => text.take n
  | none => text

/-- **A text set in a column.** -/
def set (c : Column) (text : String) : String :=
  let cell := c.kept text.toList
  let (before, behind) := margins c.alignment (c.width - cell.length)
  String.ofList (List.replicate before c.fill ++ cell ++ List.replicate behind c.fill)

end Column

end DeclTags
