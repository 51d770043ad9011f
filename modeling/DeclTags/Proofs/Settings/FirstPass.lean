import DeclTags.Settings
import Mathlib.Data.List.TakeWhile

/-!
# The first pass over a command line

The first pass goes through the entries from left to right, and what it makes
of one depends on the entries around it in one case only: a flag that needs a
value takes the argument behind it, with all entries of that argument. So the
pass can be cut between any two arguments, unless the first of them is such a
flag. What comes before the cut is read as it would be alone, and what comes
behind it is read afresh (`ofEntries_append`). The indices of the entries see
to that, because no two arguments share one.
-/

namespace DeclTags

open Utf8

namespace Entry

/-- **Two lists of entries come from different arguments.** -/
def Apart (es later : List Entry) : Prop := ∀ e ∈ es, ∀ f ∈ later, e.index ≠ f.index

variable {n : Nat} {a : Bytes} {rest arguments : List Bytes} {e : Entry}

theorem ofArgumentsFrom_cons {forms : List Form} (h : Form.ofArgument? a = some forms) :
    ofArgumentsFrom n (a :: rest) = forms.map (⟨·, n⟩) ++ ofArgumentsFrom (n + 1) rest := by
  rw [ofArgumentsFrom, h]

/-- Paths have the numbers of their arguments. -/
theorem index_of_mem_paths (h : e ∈ paths n arguments) :
    n ≤ e.index ∧ e.index < n + arguments.length := by
  induction arguments generalizing n with
  | nil => exact absurd h List.not_mem_nil
  | cons a rest ih =>
    rw [List.length_cons]
    rcases List.mem_cons.mp h with rfl | h
    · exact ⟨Nat.le_refl n, Nat.lt_add_of_pos_right (Nat.succ_pos _)⟩
    · have := ih h
      omega

/-- **Entries have the numbers of their arguments.** -/
theorem index_of_mem (h : e ∈ ofArgumentsFrom n arguments) :
    n ≤ e.index ∧ e.index < n + arguments.length := by
  induction arguments generalizing n with
  | nil => exact absurd h List.not_mem_nil
  | cons a rest ih =>
    rw [List.length_cons]
    rw [ofArgumentsFrom] at h
    split at h
    · have := index_of_mem_paths h
      omega
    · rcases List.mem_append.mp h with h | h
      · obtain ⟨form, -, rfl⟩ := List.mem_map.mp h
        exact ⟨Nat.le_refl n, Nat.lt_add_of_pos_right (Nat.succ_pos _)⟩
      · have := ih h
        omega

end Entry

namespace Command

variable {e v : Entry} {es later : List Entry}

theorem ofEntries_nil : ofEntries [] = .ok ([], []) := by
  rw [ofEntries]

theorem ofEntries_stop {reason : Stop} (h : Meaning.ofForm e.form = .stop reason) :
    ofEntries (e :: es) = .error reason := by
  rw [ofEntries, h]

theorem ofEntries_command {c : Command} (h : Meaning.ofForm e.form = .command c) :
    ofEntries (e :: es) = (ofEntries es).map fun x => (c :: x.1, x.2) := by
  rw [ofEntries, h]

theorem ofEntries_path {bytes : Bytes} (h : Meaning.ofForm e.form = .path bytes) :
    ofEntries (e :: es) = (ofEntries es).map fun x => (x.1, bytes :: x.2) := by
  rw [ofEntries, h]

theorem ofEntries_missing {flag : ValueFlag} (h : Meaning.ofForm e.form = .valued flag) :
    ofEntries [e] = .error (.missingValue flag) := by
  rw [ofEntries, h]

theorem ofEntries_valued {flag : ValueFlag} (h : Meaning.ofForm e.form = .valued flag) :
    ofEntries (e :: v :: es) = (ofEntries (es.dropWhile (·.index == v.index))).map fun x =>
      (flag.command (lossy v.whole) :: x.1, x.2) := by
  rw [ofEntries, h]

/-- Entries of other arguments are no rest of an argument. -/
theorem dropWhile_of_apart (h : ∀ f ∈ later, v.index ≠ f.index) :
    later.dropWhile (·.index == v.index) = later := by
  cases later with
  | nil => rfl
  | cons f later =>
    refine List.dropWhile_cons_of_neg ?_
    rw [beq_iff_eq]
    exact (h f List.mem_cons_self).symm

/-- The rest of an argument ends before the entries of others. -/
theorem dropWhile_append_of_apart (h : ∀ f ∈ later, v.index ≠ f.index) :
    (es ++ later).dropWhile (·.index == v.index)
      = es.dropWhile (·.index == v.index) ++ later := by
  rw [List.dropWhile_append]
  split
  · rename_i hempty
    rw [List.isEmpty_iff.mp hempty, dropWhile_of_apart h]
    rfl
  · rfl

/-- One entry more in front, or a flag and its value, where the first pass
can be cut behind what follows them. -/
theorem ofEntries_append_of_map {before rest : List Entry} (commands : List Command)
    (paths : List Bytes)
    (here : ofEntries before = (ofEntries rest).map fun x => (commands ++ x.1, paths ++ x.2))
    (there : ofEntries (before ++ later)
      = (ofEntries (rest ++ later)).map fun x => (commands ++ x.1, paths ++ x.2))
    (hcomplete : ∀ flag, ofEntries before ≠ .error (.missingValue flag))
    (ih : (∀ flag, ofEntries rest ≠ .error (.missingValue flag)) →
      ofEntries (rest ++ later) = (ofEntries rest).bind fun x =>
        (ofEntries later).map fun y => (x.1 ++ y.1, x.2 ++ y.2)) :
    ofEntries (before ++ later) = (ofEntries before).bind fun x =>
      (ofEntries later).map fun y => (x.1 ++ y.1, x.2 ++ y.2) := by
  have hrest : ∀ flag, ofEntries rest ≠ .error (.missingValue flag) := fun flag hmissing =>
    hcomplete flag (by rw [here, hmissing]; rfl)
  rw [there, here, ih hrest]
  cases ofEntries rest with
  | error stop => rfl
  | ok x =>
    cases ofEntries later with
    | error stop => rfl
    | ok y =>
      refine congrArg Except.ok (Prod.ext ?_ ?_)
      · exact (List.append_assoc commands x.1 y.1).symm
      · exact (List.append_assoc paths x.2 y.2).symm

/-- **The first pass can be cut** between two arguments, unless the first of
them is a flag that lacks its value: what comes before the cut is read as it
would be alone, and what comes behind it is read afresh. -/
theorem ofEntries_append (hapart : Entry.Apart es later)
    (hcomplete : ∀ flag, ofEntries es ≠ .error (.missingValue flag)) :
    ofEntries (es ++ later) = (ofEntries es).bind fun x =>
      (ofEntries later).map fun y => (x.1 ++ y.1, x.2 ++ y.2) := by
  induction es using ofEntries.induct with
  | case1 =>
    rw [List.nil_append, ofEntries]
    cases ofEntries later <;> rfl
  | case2 e es reason h =>
    rw [List.cons_append, ofEntries_stop h, ofEntries_stop h]
    rfl
  | case3 e es c h ih =>
    refine ofEntries_append_of_map [c] [] (ofEntries_command h) (ofEntries_command h) hcomplete
      (ih fun f hf => ?_)
    exact hapart f (List.mem_cons_of_mem e hf)
  | case4 e es bytes h ih =>
    refine ofEntries_append_of_map [] [bytes] (ofEntries_path h) (ofEntries_path h) hcomplete
      (ih fun f hf => ?_)
    exact hapart f (List.mem_cons_of_mem e hf)
  | case5 e flag h => exact absurd (ofEntries_missing h) (hcomplete flag)
  | case6 e flag h v es ih =>
    have hv := hapart v (List.mem_cons_of_mem e List.mem_cons_self)
    refine ofEntries_append_of_map [flag.command (lossy v.whole)] [] (ofEntries_valued h) ?_
      hcomplete (ih fun f hf => ?_)
    · rw [← dropWhile_append_of_apart hv]
      exact ofEntries_valued h
    · have hf := (List.dropWhile_suffix _).subset hf
      exact hapart f (List.mem_cons_of_mem e (List.mem_cons_of_mem v hf))

/-- Paths are read as paths. -/
theorem ofEntries_paths (n : Nat) (arguments : List Bytes) :
    ofEntries (Entry.paths n arguments) = .ok ([], arguments) := by
  induction arguments generalizing n with
  | nil => rw [Entry.paths, ofEntries]
  | cons a rest ih =>
    have h : Meaning.ofForm (⟨.positional a, n⟩ : Entry).form = .path a := rfl
    rw [Entry.paths, ofEntries_path h, ih]
    rfl

end Command

end DeclTags
