import DeclTags.Place

/-!
# Keywords

The scanner recognizes three words: the one that starts a list of variables,
the one that starts a routine, and the one that ends its body. Each may be
spelled in Russian or in English, and a routine is a function or a procedure
in both languages. Letter case is free, so the table holds small letters
only and a line is compared in its small form.
-/

namespace DeclTags

/-- **What a keyword says.** -/
inductive Keyword
  /-- A list of variables follows. -/
  | var
  /-- A function or procedure follows. -/
  | sub
  /-- The body of a function or procedure ends. -/
  | endSub
deriving DecidableEq

namespace Keyword

/-- All keywords, in the order of the table. -/
def all : List Keyword := [var, sub, endSub]

/-- The name of a keyword in the log. -/
def label : Keyword → String
  | var => "Var"
  | sub => "Sub"
  | endSub => "EndSub"

/-- **The spellings of a keyword**, in small letters. -/
def spellings : Keyword → List String
  | var => ["var", "перем"]
  | sub => ["функция", "процедура", "function", "procedure"]
  | endSub => ["конецфункции", "конецпроцедуры", "endfunction", "endprocedure"]

/-- The spelling of a keyword that stands at a place, as the number of its
bytes. -/
def find? (k : Keyword) (p : Place) : Option Nat :=
  ((k.spellings.map Utf8.ofString).find? p.matchesWord).map List.length

/-- The spelling of a keyword that stands at a place where a word may start. -/
def at? (k : Keyword) (p : Place) : Option Nat :=
  if p.atWordStart then k.find? p else none

/-- No spelling is empty. -/
theorem ofString_ne_nil_of_mem_spellings {k : Keyword} {s : String} (h : s ∈ k.spellings) :
    Utf8.ofString s ≠ [] := by
  cases k <;> simp only [spellings, List.mem_cons, List.not_mem_nil, or_false] at h <;>
    rcases h with rfl | rfl | rfl | rfl <;> decide

/-- A keyword that is found has at least one byte, and these are bytes of the
line. -/
theorem find?_pos {k : Keyword} {p : Place} {n : Nat} (h : k.find? p = some n) :
    0 < n ∧ n ≤ p.after.length := by
  obtain ⟨w, hw, rfl⟩ := Option.map_eq_some_iff.mp h
  obtain ⟨s, hs, rfl⟩ := List.mem_map.mp (List.mem_of_find?_eq_some hw)
  have hm := List.find?_some hw
  simp only [Place.matchesWord, Bool.and_eq_true, beq_iff_eq, List.length_take] at hm
  exact ⟨List.length_pos_iff.mpr (ofString_ne_nil_of_mem_spellings hs), by omega⟩

theorem at?_pos {k : Keyword} {p : Place} {n : Nat} (h : k.at? p = some n) :
    0 < n ∧ n ≤ p.after.length := by
  unfold at? at h
  split at h
  · exact find?_pos h
  · simp at h

end Keyword

end DeclTags
