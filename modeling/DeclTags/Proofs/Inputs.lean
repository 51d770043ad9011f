import DeclTags.FileTree
import DeclTags.Program
import DeclTags.Proofs.Settings.Separator

/-!
# Inputs are independent

A run goes through its inputs one after another, and each of them is scanned
as if there were no others. A body, a comment or a string that is left open at
the end of one input is not open at the start of the next, lines are counted
anew, and an input that fails is reported without stopping the rest. What two
lists of paths print together is what they print apart.

Nothing is supposed about the walk, except that it is the same for both. It may
come to files in any order, leave some out and fail in its midst.

There is one thing that inputs have in common, the standard input, which can
be read only once. So a list may ask for it once. Paths that do not ask for it
do not notice whether it is still there (`ofPaths_of_not_mem`). And there is one
thing that goes on from one list to the next, the time, which the log prints
before its records.
-/

namespace DeclTags

open Utf8

/-- **Arguments that are flags with their values**, and that settings come
of. -/
structure Flags (arguments : List Bytes) : Prop where
  /-- The separator is not among them. -/
  noSeparator : Argument.separator ∉ arguments
  /-- No path is among them. -/
  noPath : Argument.paths arguments = []
  /-- They give settings, so that no value is missing, either. -/
  accepted : ∃ s, Settings.ofArguments arguments = .ok s

/-- **What is printed about some notices and then about others.** The log counts
on. -/
theorem Outcome.errors_append (o : Outcome) {before after : Outcome}
    (h : o.notices = before.notices ++ after.notices) (ofRecord : Nat → Record → Bytes) :
    o.errors ofRecord
      = before.errors ofRecord ++ after.errors fun n => ofRecord (n + before.notices.length) := by
  unfold errors
  rw [h, List.mapIdx_append, List.flatten_append]

namespace Program

variable {task : Task} {walk : Walk} {p q : List Bytes}

/-! ## Contributions of paths -/

/-- **An input that fails leaves nothing behind in the output.** -/
theorem output_ofInput_of_fails {path : Bytes} {content : Source}
    (h : (ofInput task path content).fails = true) : (ofInput task path content).output = [] := by
  unfold ofInput Task.run at h ⊢
  cases hcontent : content.tags task.rules with
  | error cause => rfl
  | ok tags =>
    rw [hcontent] at h
    dsimp only at h
    rw [Sink.write_unlimited] at h
    simp [Contribution.fails, Notice.isFault] at h

/-- **What a walk comes to is an input**, or prints nothing. -/
theorem ofFound_cases (task : Task) (found : Except String Found) :
    (ofFound task found).output = [] ∨
      ∃ path content, ofFound task found = ofInput task path content := by
  cases found with
  | error text => exact .inl rfl
  | ok f =>
    unfold ofFound
    dsimp only
    split
    · exact .inl rfl
    · split
      · exact .inl rfl
      · split
        · exact .inl rfl
        · exact .inr ⟨_, _, rfl⟩

theorem output_ofFound_of_fails {found : Except String Found}
    (h : (ofFound task found).fails = true) : (ofFound task found).output = [] := by
  rcases ofFound_cases task found with hnone | ⟨path, content, hinput⟩
  · exact hnone
  · rw [hinput] at h ⊢
    exact output_ofInput_of_fails h

/-- Paths that do not ask for the standard input do without it. -/
theorem ofPaths_of_not_mem (h : standardInput ∉ p) (input input' : Source) :
    ofPaths task walk input p = ofPaths task walk input' p := by
  induction p with
  | nil => rfl
  | cons path rest ih =>
    obtain ⟨hpath, hrest⟩ := List.ne_and_not_mem_of_not_mem_cons h
    rw [ofPaths, ofPaths, if_neg hpath.symm, if_neg hpath.symm, ih hrest]

/-- **Two lists of paths contribute what each of them does**, if they ask for
the standard input only once. -/
theorem ofPaths_append (input : Source) (h : (p ++ q).count standardInput ≤ 1) :
    ofPaths task walk input (p ++ q)
      = ofPaths task walk input p ++ ofPaths task walk input q := by
  induction p with
  | nil => rfl
  | cons path rest ih =>
    rw [List.cons_append, ofPaths, ofPaths]
    rw [List.cons_append, List.count_cons] at h
    split
    · -- the standard input has been asked for, so nobody does so later
      rename_i hpath
      rw [hpath, beq_self_eq_true, if_pos rfl] at h
      have hnone : standardInput ∉ rest ++ q := List.count_eq_zero.mp (by omega)
      have hrest : standardInput ∉ rest := fun hmem => hnone (List.mem_append_left q hmem)
      have hlater := ih (Nat.le_of_add_right_le h)
      rw [ofPaths_of_not_mem hnone [] input, ofPaths_of_not_mem hrest [] input, hlater]
      rfl
    · rw [ih (Nat.le_of_add_right_le h), List.append_assoc]

/-- **With flags in front of the separator** a run does the same task for
whatever paths are behind it. -/
theorem exists_run_eq {flags : List Bytes} (h : Flags flags) (called? : Option String)
    (input : Source) (walk : Walk) (terminal : Terminal) :
    ∃ task, ∀ p, p ≠ [] →
      run ⟨called?, flags ++ Argument.separator :: p, input, walk, terminal⟩
        = outcome (ofPaths task walk input p) := by
  obtain ⟨s, hs⟩ := h.accepted
  obtain ⟨r, hflags, hr⟩ := Settings.exists_ofArguments_append_separator h.noSeparator
    (Settings.awaited?_of_ofArguments h.noSeparator hs)
  rw [hflags] at hs
  cases r with
  | error stop => exact absurd hs (by simp [Except.map])
  | ok base =>
    refine ⟨base.task terminal.showsColor, fun p hp => ?_⟩
    rw [run, hr p hp, h.noPath]
    rfl

/-- **What contributions come to**, one after another. -/
theorem outcome_append (a b : List Contribution) :
    (outcome (a ++ b)).output = (outcome a).output ++ (outcome b).output ∧
      (outcome (a ++ b)).notices = (outcome a).notices ++ (outcome b).notices ∧
      (outcome (a ++ b)).code
        = if (outcome a).code = 2 ∨ (outcome b).code = 2 then 2 else 0 := by
  unfold outcome
  refine ⟨List.flatMap_append, List.flatMap_append, ?_⟩
  dsimp only
  rw [List.any_append]
  cases a.any (·.fails) <;> cases b.any (·.fails) <;> rfl

end Program

/-- **Inputs are independent.** What a run writes for two lists of paths is
what it writes for the first, and then what it writes for the second, and it
fails if one of them does. That holds for both streams, with records of the log
that are told later for the second list. An input with a fault writes no
listing. -/
theorem inputs_independent {flags p q : List Bytes} (hflags : Flags flags) (hp : p ≠ [])
    (hq : q ≠ []) (called? : Option String) (input : Source) (walk : Walk) (terminal : Terminal)
    (hinput : (p ++ q).count Program.standardInput ≤ 1) :
    let run (paths : List Bytes) :=
      Program.run ⟨called?, flags ++ Argument.separator :: paths, input, walk, terminal⟩
    (run (p ++ q)).output = (run p).output ++ (run q).output ∧
      (run (p ++ q)).notices = (run p).notices ++ (run q).notices ∧
      (∀ ofRecord : Nat → Record → Bytes, (run (p ++ q)).errors ofRecord
        = (run p).errors ofRecord
          ++ (run q).errors fun n => ofRecord (n + (run p).notices.length)) ∧
      (run (p ++ q)).code = (if (run p).code = 2 ∨ (run q).code = 2 then 2 else 0) ∧
      (∀ task path content, (Program.ofInput task path content).fails = true →
        (Program.ofInput task path content).output = []) ∧
      ∀ task found, (Program.ofFound task found).fails = true →
        (Program.ofFound task found).output = [] := by
  intro run
  obtain ⟨task, hrun⟩ := Program.exists_run_eq hflags called? input walk terminal
  have happend : run (p ++ q) = Program.outcome
      (Program.ofPaths task walk input p ++ Program.ofPaths task walk input q) := by
    rw [← Program.ofPaths_append input hinput]
    exact hrun (p ++ q) (by simp [hp])
  obtain ⟨houtput, hnotices, hcode⟩ := Program.outcome_append
    (Program.ofPaths task walk input p) (Program.ofPaths task walk input q)
  rw [← happend, ← hrun p hp, ← hrun q hq] at houtput hnotices hcode
  exact ⟨houtput, hnotices, Outcome.errors_append _ hnotices, hcode,
    fun _ _ _ => Program.output_ofInput_of_fails, fun _ _ => Program.output_ofFound_of_fails⟩

/-- An input that ends in an open body and an open comment, one that fails after
a declaration, and behind them the standard input and a path that leads
nowhere. The log warns of the failure before it is reported. -/
theorem inputs_independent_open_body :
    let flags := [ofString "--kinds", ofString "v"]
    let p := [ofString "open.os", ofString "torn.os"]
    let q := [ofString "-", ofString "gone.os"]
    let walk := (FileTree.directory
      [(ofString "open.os", .file (.ofBytes (ofString "Function F()\nVar a; /*"))),
        (ofString "torn.os", .file [.data (ofString "Var b;\n"), .failure "torn"])]).walk
    let ofRecord (n : Nat) (r : Record) := ofString
      ("[2024-05-01T08:00:0" ++ toString n ++ "Z " ++ r.level.label ++ "  e8tags::reader] "
        ++ r.text ++ "\n")
    let run (paths : List Bytes) := Program.run
      ⟨none, flags ++ Argument.separator :: paths, .ofBytes (ofString "Var c;"), walk, {}⟩
    let gone := "gone.os: IO error for operation on gone.os: No such file or directory (os error 2)"
    Flags flags ∧ p ≠ [] ∧ q ≠ [] ∧ (p ++ q).count Program.standardInput ≤ 1 ∧
      run p = ⟨2, ofString "a\topen.os\t2;\"\tv\tfunction:F\n",
        [.record (.readFailed "torn"), .fault (.input (ofString "torn.os") "torn")]⟩ ∧
      run q = ⟨2, ofString "c\t-\t1;\"\tv\n", [.fault (.walk gone)]⟩ ∧
      (run (p ++ q)).output
        = ofString "a\topen.os\t2;\"\tv\tfunction:F\nc\t-\t1;\"\tv\n" ∧
      (run (p ++ q)).errors ofRecord
        = ofString "[2024-05-01T08:00:00Z WARN  e8tags::reader] Read failed: torn\n"
          ++ ofString "torn.os: torn\n" ++ ofString (gone ++ "\n") ∧
      (run (p ++ q)).code = 2 := by
  intro flags p q walk ofRecord run gone
  have hflags : Flags flags := ⟨by decide +kernel, by decide +kernel,
    { rules := { kinds := ⟨false, true⟩ } }, by decide +kernel⟩
  have hinput : (p ++ q).count Program.standardInput ≤ 1 := by decide +kernel
  obtain ⟨houtput, -, herrors, hcode, -⟩ := inputs_independent hflags (p := p) (q := q) (by decide)
    (by decide) none (.ofBytes (ofString "Var c;")) walk {} hinput
  have hp : run p = ⟨2, ofString "a\topen.os\t2;\"\tv\tfunction:F\n",
      [.record (.readFailed "torn"), .fault (.input (ofString "torn.os") "torn")]⟩ := by
    decide +kernel
  have hq : run q = ⟨2, ofString "c\t-\t1;\"\tv\n", [.fault (.walk gone)]⟩ := by decide +kernel
  refine ⟨hflags, by decide, by decide, hinput, hp, hq, ?_, ?_, ?_⟩
  · exact houtput.trans
      ((congrArg₂ (· ++ ·) (congrArg Outcome.output hp) (congrArg Outcome.output hq)).trans
        (by decide))
  · have happend : (run (p ++ q)).errors ofRecord = (run p).errors ofRecord
        ++ (run q).errors fun n => ofRecord (n + (run p).notices.length) := herrors ofRecord
    rw [happend, hp, hq]
    decide +kernel
  · exact hcode.trans (if_pos (.inl (congrArg Outcome.code hp)))

end DeclTags
