/-!
# Tags

A tag is one declaration: a name, what it names, the line the name stands
on, and for a variable the function around it. Functions are the only scopes
of the language, and they do not nest, so a scope is the name of a function
and nothing more.
-/

namespace DeclTags

/-- **What a tag declares.** -/
inductive Kind
  /-- A function or procedure. -/
  | function
  /-- A variable. -/
  | var
deriving DecidableEq

namespace Kind

/-- All kinds, in the order in which they are listed. -/
def all : List Kind := [function, var]

/-- The letter that stands for a kind in a tags file. -/
def letter : Kind → Char
  | function => 'f'
  | var => 'v'

/-- The name of a kind. -/
def name : Kind → String
  | function => "function"
  | var => "variable"

/-- The kind of a given name. Case counts. -/
def ofName? (name : String) : Option Kind := all.find? (·.name == name)

end Kind

/-- **A set of kinds**: those whose tags are wanted. -/
structure KindSet where
  /-- Are functions in the set? -/
  function : Bool
  /-- Are variables in the set? -/
  var : Bool
deriving DecidableEq

namespace KindSet

/-- Every kind. -/
def all : KindSet := ⟨true, true⟩

/-- No kind. -/
def none : KindSet := ⟨false, false⟩

/-- Is a kind in the set? -/
def contains (s : KindSet) : Kind → Bool
  | .function => s.function
  | .var => s.var

/-- The set with one kind put in or taken out. -/
def set (s : KindSet) (k : Kind) (present : Bool) : KindSet :=
  match k with
  | .function => { s with function := present }
  | .var => { s with var := present }

/-- The set of the kinds of a list. -/
def ofList (kinds : List Kind) : KindSet := kinds.foldl (·.set · true) none

/-- The kinds of a set, in the order in which kinds are listed. -/
def toList (s : KindSet) : List Kind := Kind.all.filter s.contains

/-- The letters of a set, in the same order. -/
def letters (s : KindSet) : String := String.ofList (s.toList.map Kind.letter)

@[simp] theorem contains_none (k : Kind) : none.contains k = false := by cases k <;> rfl

@[simp] theorem contains_all (k : Kind) : all.contains k = true := by cases k <;> rfl

/-- Setting one kind leaves the others alone. -/
@[simp] theorem contains_set (s : KindSet) (k k' : Kind) (present : Bool) :
    (s.set k present).contains k' = if k' = k then present else s.contains k' := by
  cases k <;> cases k' <;> rfl

/-- A set of listed kinds holds what the list holds. -/
@[simp] theorem contains_ofList (kinds : List Kind) (k : Kind) :
    (ofList kinds).contains k = decide (k ∈ kinds) := by
  have general : ∀ (kinds : List Kind) (s : KindSet),
      (kinds.foldl (·.set · true) s).contains k = (s.contains k || decide (k ∈ kinds)) := by
    intro kinds
    induction kinds with
    | nil => simp
    | cons j rest ih =>
      intro s
      rw [List.foldl_cons, ih, contains_set]
      by_cases h : k = j <;> simp [h]
  rw [ofList, general, contains_none, Bool.false_or]

end KindSet

/-- **A declaration.** -/
structure Tag where
  /-- The declared name. -/
  name : String
  /-- What it names. -/
  kind : Kind
  /-- The line of the name, the first line being line 1. -/
  line : Nat
  /-- The function around a variable. -/
  scope? : Option String
deriving DecidableEq

namespace Tag

/-- What a scope is: the name of the only kind that can be one. -/
def scopeKind : String := Kind.function.name

/-- How a scope is written: what it is and its name. -/
def scopeText (function : String) : String := scopeKind ++ ":" ++ function

end Tag

end DeclTags
