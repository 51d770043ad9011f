import DeclTags.Proofs.Settings.Arguments
import DeclTags.Proofs.Settings.Kinds

/-!
# What the parts of a command line say

Who reads a command line aloud needs to know what each flag is for, and nothing
of passes, of commands or of reasons to stop. This module is that knowledge, in
tables. Some flags give values to settings, one of them to three at once. Some
end the run: at once, or when all flags before them have had their turn. Two
need a value and say something about it. All other flags are mistakes, and so is
a value attached to a flag that needs none. A run that ends says with which code
and with which text.

The first pass and the commands that it finds have been written without these
tables. They agree with them: the pass makes of each entry what the tables say
(`Saying.alone?_eq`, `Saying.lookup_name`), and of a command comes what its order
says (`Settings.apply_eq`).
-/

namespace DeclTags

open Utf8

/-! ## Exits -/

/-- **How a run ends** that looks at no input. -/
structure Exit where
  /-- The exit code. -/
  code : Nat
  /-- What is printed. -/
  text : String
deriving DecidableEq

namespace Exit

variable (program : String)

/-- How the program is used, in short. -/
def usage : String :=
  "Usage: " ++ program ++ " [OPTION]... [PATH]...\nPass --help for more information.\n"

/-- **A mistake**: what it is, and how the program is used. -/
def mistake (what : String) : Exit := ⟨1, what ++ "\n" ++ usage program⟩

/-- The table of kinds. -/
def kinds : Exit := ⟨0, "f  function   functions\nv  variable   variables\n"⟩

/-- The table of languages. -/
def languages : Exit := ⟨0, "E8Script   *.e8s *.os *.1scr\n"⟩

end Exit

/-! ## Sayings -/

/-- **Values for settings.** A setting without one is left alone. -/
structure Given where
  /-- Are comments skipped? -/
  comments? : Option Bool := none
  /-- Are string literals skipped? -/
  strings? : Option Bool := none
  /-- May names start with Cyrillic letters? -/
  cyrillic? : Option Bool := none
  /-- Which kinds are wanted? -/
  kinds? : Option KindSet := none
  /-- How are tags listed? -/
  format? : Option Format := none
  /-- When are names set in bold? -/
  color? : Option ColorChoice := none
deriving DecidableEq

/-- **What is to be done in its turn.** -/
inductive Order
  /-- Some settings get values. -/
  | give (values : Given)
  /-- The run ends. -/
  | refuse (e : Exit)
deriving DecidableEq

namespace Order

variable (program : String)

/-- Tags are to be listed in the format of this name. -/
def ofFormat (name : String) : Order :=
  match [("ctags", Format.ctags), ("xref", .xref), ("json", .json)].lookup name with
  | some format => .give { format? := some format }
  | none => .refuse (.mistake program ("Unknown output format: " ++ name))

/-- The kinds of these letters are wanted. -/
def ofKinds (letters : String) : Order :=
  match letters.toList.find? fun c => c ≠ 'f' ∧ c ≠ 'v' with
  | some letter => .refuse (.mistake program ("Unknown kind: " ++ letter.toString))
  | none => .give { kinds? := some ⟨'f' ∈ letters.toList, 'v' ∈ letters.toList⟩ }

end Order

/-- **What a part of a command line says.** -/
inductive Saying
  /-- The run ends at once. -/
  | stop (e : Exit)
  /-- Something is to be done in its turn. -/
  | order (o : Order)
  /-- A path is to be scanned. -/
  | path (bytes : Bytes)
deriving DecidableEq

namespace Saying

/-! ## The tables -/

variable (program : String)

/-- **The short flags.** -/
def shortFlags : List (Char × Saying) :=
  [('h', stop ⟨0, Exit.usage program⟩),
    ('x', order (.give { format? := some .xref }))]

/-- **The long flags that need no value.** -/
def longFlags : List (String × Saying) :=
  [("help", stop ⟨0, Usage.long program⟩),
    ("comments", order (.give { comments? := some true })),
    ("no-comments", order (.give { comments? := some false })),
    ("strings", order (.give { strings? := some true })),
    ("no-strings", order (.give { strings? := some false })),
    ("cyrillic", order (.give { cyrillic? := some true })),
    ("no-cyrillic", order (.give { cyrillic? := some false })),
    ("legacy", order (.give
      { comments? := some false, strings? := some false, cyrillic? := some false })),
    ("color", order (.give { color? := some .always })),
    ("no-color", order (.give { color? := some .never })),
    ("list-kinds", order (.refuse .kinds)),
    ("list-maps", order (.refuse .languages))]

/-- **The long flags that need a value**, and what they say about it. -/
def valuedFlags : List (String × (String → Order)) :=
  [("format", Order.ofFormat program), ("kinds", Order.ofKinds program)]

/-- **What an entry says by itself.** A flag that needs a value says nothing
without it. -/
def alone? : Form → Option Saying
  | .short letter _ =>
    some (((shortFlags program).lookup letter).getD
      (stop (.mistake program ("Unknown flag: -" ++ letter.toString))))
  | .long name _ =>
    match (valuedFlags program).lookup name with
    | some _ => none
    | none =>
      some (((longFlags program).lookup name).getD
        (stop (.mistake program ("Unknown flag: --" ++ name))))
  | .attached value => some (stop (.mistake program ("Unexpected value: " ++ value)))
  | .positional bytes => some (path bytes)

end Saying

/-! ## The first pass agrees -/

/-- How a run ends that stops for a reason. -/
def Stop.exit (program : String) (s : Stop) : Exit := ⟨s.exitCode, s.output program⟩

namespace Stop

theorem usage_eq (program : String) : Usage.short program = Exit.usage program := by
  simp only [Usage.short, Usage.synopsis, Exit.usage, String.append_assoc]
  rfl

/-- **A reason with a complaint is a mistake.** -/
theorem exit_of_complaint {s : Stop} {complaint : String} (program : String)
    (h : s.complaint? = some complaint) : s.exit program = .mistake program complaint := by
  have htext : s.output program = complaint ++ "\n" ++ Usage.short program := by
    unfold output
    rw [h]
  have hcode : s.exitCode = 1 := by
    rw [exitCode, h]
    rfl
  rw [exit, htext, hcode, usage_eq, Exit.mistake]

theorem exit_usage (program : String) : usage.exit program = ⟨0, Exit.usage program⟩ := by
  rw [← usage_eq]
  rfl

theorem exit_kindTable (program : String) : kindTable.exit program = .kinds := by
  have htext : Usage.kinds Language.e8script = Exit.kinds.text := by decide +kernel
  exact congrArg (Exit.mk 0) htext

theorem exit_languageTable (program : String) : languageTable.exit program = .languages := by
  have htext : Usage.languages Language.all = Exit.languages.text := by decide +kernel
  exact congrArg (Exit.mk 0) htext

end Stop

/-- What a command says. -/
def Command.order (program : String) : Command → Order
  | kinds letters => .ofKinds program letters
  | format name => .ofFormat program name
  | comments on => .give { comments? := some on }
  | strings on => .give { strings? := some on }
  | cyrillic on => .give { cyrillic? := some on }
  | plain => .give { comments? := some false, strings? := some false, cyrillic? := some false }
  | color choice => .give { color? := some choice }
  | kindTable => .refuse .kinds
  | languageTable => .refuse .languages

namespace Saying

/-- What an entry says by itself, by what it means to the first pass. -/
def ofMeaning? (program : String) : Meaning → Option Saying
  | .stop reason => some (stop (reason.exit program))
  | .command c => some (order (c.order program))
  | .valued _ => none
  | .path bytes => some (path bytes)

variable (program : String)

theorem alone?_short (letter : Char) (whole : String) :
    alone? program (.short letter whole) = ofMeaning? program (Meaning.ofForm (.short letter whole)) := by
  by_cases hh : letter = 'h'
  · subst hh
    exact congrArg (fun e => some (stop e)) (Stop.exit_usage program).symm
  · by_cases hx : letter = 'x'
    · subst hx
      rfl
    · have hmeaning : Meaning.ofForm (.short letter whole) = .stop (.unknownShort letter) := by
        rw [Meaning.ofForm]
        · exact hh
        · exact hx
      have hlookup : (shortFlags program).lookup letter = none :=
        List.lookup_eq_none_iff.mpr (by simp [shortFlags, hh, hx])
      rw [alone?, hlookup, hmeaning, ofMeaning?, Stop.exit_of_complaint program rfl]
      rfl

theorem alone?_long (name whole : String) :
    alone? program (.long name whole) = ofMeaning? program (Meaning.ofLong name) := by
  unfold Meaning.ofLong
  split
  case h_15 =>
    -- the name is none of those that have been asked about
    have hvalued : (valuedFlags program).lookup name = none := by
      simp only [valuedFlags, List.lookup_eq_none_iff, List.forall_mem_cons, bne_iff_ne]
      grind
    have hlong : (longFlags program).lookup name = none := by
      simp only [longFlags, List.lookup_eq_none_iff, List.forall_mem_cons, bne_iff_ne]
      grind
    rw [alone?, hvalued, ofMeaning?, Stop.exit_of_complaint program rfl]
    dsimp only
    rw [hlong]
    rfl
  all_goals rfl

/-- **What an entry means to the first pass** is what it says. -/
theorem alone?_eq (form : Form) : alone? program form = ofMeaning? program (Meaning.ofForm form) := by
  cases form with
  | short letter whole => exact alone?_short program letter whole
  | long name whole => exact alone?_long program name whole
  | attached value =>
    rw [alone?, Meaning.ofForm, ofMeaning?, Stop.exit_of_complaint program rfl]
  | positional bytes => rfl

/-- **A flag that needs a value** says of it what its command does. -/
theorem lookup_name (flag : ValueFlag) : (valuedFlags program).lookup flag.name
    = some fun value => (flag.command value).order program := by
  cases flag <;> rfl

end Saying

end DeclTags
