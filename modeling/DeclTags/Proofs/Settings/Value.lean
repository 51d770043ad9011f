import DeclTags.Proofs.Settings.Separator

/-!
# Two ways to give a flag its value

The value of a flag stands behind an equals sign or is the next argument. The
two are read along different ways. An attached value is cut off the text of its
argument. A value of its own is first taken apart like every other argument –
it may look like a path, like several short flags, or like a long flag with a
value attached to it – and then put together again, because a flag takes the
argument behind it whole. Both ways end at the same text, that of the bytes of
the value (`Argument.ofEntries_attached` against
`Argument.ofEntries_valueFlag`).

The arguments behind the value have other numbers on the two command lines.
That makes no difference: numbers only tell whether two entries belong to one
argument, so nothing depends on which numbers they are
(`Command.ofEntries_renumber`).
-/

namespace DeclTags

open Utf8

/-- Behind a text, bytes are read as they would be alone. -/
theorem Utf8.lossy_ofString_append (text : String) (more : Bytes) :
    lossy (ofString text ++ more) = text ++ lossy more := by
  rw [lossy, ofString, segments_encode_append, List.map_append, List.map_map, String.ofList_append]
  refine congrArg (· ++ lossy more) ?_
  show String.ofList (text.toList.map id) = text
  rw [List.map_id, String.ofList_toList]

/-! ## Numbers of arguments -/

/-- An entry under another number. -/
def Entry.renumber (f : Nat → Nat) (e : Entry) : Entry := ⟨e.form, f e.index⟩

namespace Entry

theorem paths_add (m n : Nat) (arguments : List Bytes) :
    paths (n + m) arguments = (paths n arguments).map (renumber (· + m)) := by
  induction arguments generalizing n with
  | nil => rfl
  | cons a rest ih =>
    rw [paths, paths, Nat.add_right_comm, ih]
    rfl

/-- Arguments that are numbered from a later number on have the same entries
under later numbers. -/
theorem ofArgumentsFrom_add (m n : Nat) (arguments : List Bytes) :
    ofArgumentsFrom (n + m) arguments = (ofArgumentsFrom n arguments).map (renumber (· + m)) := by
  induction arguments generalizing n with
  | nil => rfl
  | cons a rest ih =>
    rw [ofArgumentsFrom, ofArgumentsFrom, Nat.add_right_comm, ih, paths_add]
    cases Form.ofArgument? a with
    | none => rfl
    | some forms =>
      dsimp only
      rw [List.map_append, List.map_map]
      rfl

end Entry

namespace Command

/-- **The first pass does not depend on the numbers of the arguments**, as long
as different arguments have different ones. -/
theorem ofEntries_renumber {f : Nat → Nat} (hf : Function.Injective f) (es : List Entry) :
    ofEntries (es.map (Entry.renumber f)) = ofEntries es := by
  induction es using ofEntries.induct with
  | case1 => rfl
  | case2 e es reason h =>
    rw [List.map_cons, ofEntries_stop h, ofEntries_stop (e := e.renumber f) h]
  | case3 e es c h ih =>
    rw [List.map_cons, ofEntries_command h, ofEntries_command (e := e.renumber f) h, ih]
  | case4 e es bytes h ih =>
    rw [List.map_cons, ofEntries_path h, ofEntries_path (e := e.renumber f) h, ih]
  | case5 e flag h =>
    rw [List.map_singleton, ofEntries_missing h, ofEntries_missing (e := e.renumber f) h]
  | case6 e flag h v es ih =>
    have hsame : (fun e => e.index == (v.renumber f).index) ∘ Entry.renumber f
        = fun e : Entry => e.index == v.index := by
      funext e
      exact Bool.eq_iff_iff.mpr (by simp [Entry.renumber, hf.eq_iff])
    rw [List.map_cons, List.map_cons, ofEntries_valued h,
      ofEntries_valued (e := e.renumber f) h, List.dropWhile_map, hsame, ih]
    rfl

/-- It does not matter at which number a command line starts. -/
theorem ofEntries_ofArgumentsFrom (m n : Nat) (arguments : List Bytes) :
    ofEntries (Entry.ofArgumentsFrom m arguments)
      = ofEntries (Entry.ofArgumentsFrom n arguments) := by
  have hzero (k : Nat) : ofEntries (Entry.ofArgumentsFrom k arguments)
      = ofEntries (Entry.ofArgumentsFrom 0 arguments) := by
    have hadd := Entry.ofArgumentsFrom_add k 0 arguments
    rw [Nat.zero_add] at hadd
    rw [hadd, ofEntries_renumber fun _ _ => Nat.add_right_cancel]
  rw [hzero m, hzero n]

end Command

namespace Argument

open Command

variable {flag : ValueFlag} {v : Bytes} {rest : List Bytes} {n : Nat}

/-- The argument that is a flag and waits for its value. -/
def ofFlag (flag : ValueFlag) : Bytes := ofString ("--" ++ flag.name)

/-- The argument that is a flag with a value attached to it. -/
def withValue (flag : ValueFlag) (v : Bytes) : Bytes :=
  ofString ("--" ++ flag.name ++ "=") ++ v

theorem valueFlag?_ofFlag (flag : ValueFlag) : valueFlag? (ofFlag flag) = some flag :=
  valueFlag?_of_lossy (lossy_ofString _)

/-- An argument that waits for a value is one of these two. -/
theorem eq_ofFlag_of_valueFlag? {a : Bytes} (h : valueFlag? a = some flag) : a = ofFlag flag := by
  refine eq_ofString_of_lossy (lossy_of_valueFlag? h) ?_
  cases flag <;> decide +kernel

/-- **A flag with a value attached** has two entries, the second of which is
the text of the value. -/
theorem ofArgument?_withValue (flag : ValueFlag) (v : Bytes) :
    Form.ofArgument? (withValue flag v)
      = some [.long flag.name (lossy (withValue flag v)), .attached (lossy v)] := by
  have htext : (lossy (withValue flag v)).toList
      = '-' :: '-' :: (flag.name.toList ++ '=' :: (lossy v).toList) := by
    rw [withValue, lossy_ofString_append, String.toList_append, String.toList_append,
      String.toList_append, List.append_assoc, List.append_assoc]
    rfl
  -- the name of the flag ends at the first equals sign
  have hname : ∀ c ∈ flag.name.toList, decide (c ≠ '=') = true :=
    List.all_eq_true.mp (by cases flag <;> decide)
  have hdrop : (flag.name.toList ++ '=' :: (lossy v).toList).dropWhile (· ≠ '=')
      = '=' :: (lossy v).toList := by
    rw [List.dropWhile_append_of_pos hname]
    rfl
  have htake : (flag.name.toList ++ '=' :: (lossy v).toList).takeWhile (· ≠ '=')
      = flag.name.toList := by
    rw [List.takeWhile_append_of_pos hname]
    exact List.append_nil _
  rw [ofArgument?_eq_ofLong htext (by simp), Form.ofLong, hdrop]
  dsimp only
  rw [htake, String.ofList_toList, String.ofList_toList]

/-- **A flag takes the value that is attached to it.** -/
theorem ofEntries_attached (flag : ValueFlag) (v : Bytes) :
    ofEntries (Entry.ofArgumentsFrom n (withValue flag v :: rest))
      = (ofEntries (Entry.ofArgumentsFrom (n + 1) rest)).map fun x =>
          (flag.command (lossy v) :: x.1, x.2) := by
  have hvalued : Meaning.ofForm
      (⟨.long flag.name (lossy (withValue flag v)), n⟩ : Entry).form = .valued flag :=
    Meaning.ofLong_name flag
  have hapart : ∀ e ∈ Entry.ofArgumentsFrom (n + 1) rest,
      (⟨.attached (lossy v), n⟩ : Entry).index ≠ e.index :=
    fun e he => Nat.ne_of_lt (Entry.index_of_mem he).1
  rw [Entry.ofArgumentsFrom_cons (ofArgument?_withValue flag v), List.map_cons,
    List.map_singleton, List.cons_append, List.singleton_append, ofEntries_valued hvalued,
    dropWhile_of_apart hapart]
  rw [show (⟨.attached (lossy v), n⟩ : Entry).whole = ofString (lossy v) from rfl, lossy_ofString]

/-- Arguments among which no flag stands that takes the next one as its value
are complete. -/
theorem awaited?_eq_none {arguments : List Bytes} (h : ∀ flag, ofFlag flag ∉ arguments) :
    awaited? arguments = none := by
  induction arguments with
  | nil => rfl
  | cons a rest ih =>
    have ha : valueFlag? a = none := by
      cases hflag : valueFlag? a with
      | none => rfl
      | some flag =>
        exact absurd (eq_ofFlag_of_valueFlag? hflag ▸ List.mem_cons_self) (h flag)
    rw [awaited?_of_not_valueFlag ha]
    exact ih fun flag hmem => h flag (List.mem_cons_of_mem a hmem)

/-- **Behind complete arguments the two ways are one**: the first pass reads the
same commands and paths, or stops for the same reason. -/
theorem ofEntries_withValue {before : List Bytes} (hseparator : separator ∉ before)
    (hcomplete : awaited? before = none) (hv : v ≠ separator) :
    ofEntries (Entry.ofArguments (before ++ ofFlag flag :: v :: rest))
      = ofEntries (Entry.ofArguments (before ++ withValue flag v :: rest)) := by
  rw [Entry.ofArguments, Entry.ofArguments, ofEntries_append_arguments hseparator hcomplete,
    ofEntries_append_arguments hseparator hcomplete,
    ofEntries_valueFlag (valueFlag?_ofFlag flag) hv, ofEntries_attached,
    ofEntries_ofArgumentsFrom (1 + before.length + 2) (1 + before.length + 1)]

end Argument

/-- **A value may be attached to its flag or follow it**: the settings are the
same, and so is the reason to stop where there is one. The arguments in front
may be any that leave no flag waiting for a value and do not end the flags, and
the value may be any bytes but the separator. -/
theorem value_attached_or_separate {flag : ValueFlag} {before : List Bytes} {v : Bytes}
    (rest : List Bytes) (hseparator : Argument.separator ∉ before)
    (hbefore : ∀ f, Argument.ofFlag f ∉ before) (hv : v ≠ Argument.separator) :
    Settings.ofArguments (before ++ [Argument.ofFlag flag, v] ++ rest)
      = Settings.ofArguments (before ++ [Argument.withValue flag v] ++ rest) := by
  rw [List.append_assoc, List.append_assoc, Settings.ofArguments_eq, Settings.ofArguments_eq]
  exact congrArg (Except.bind · _)
    (Argument.ofEntries_withValue hseparator (Argument.awaited?_eq_none hbefore) hv)

/-- A value that looks like a flag with a value attached to it and is no text,
between short flags in front of it and a separator behind it. -/
theorem value_attached_or_separate_flag :
    let before : List Bytes := ["-xx", "--format=ctags", "a.os"].map ofString
    let v : Bytes := ofString "--kinds=v" ++ [0xFF]
    let rest : List Bytes := [Argument.separator, ofString "--help"]
    Settings.ofArguments (before ++ [Argument.ofFlag .kinds, v] ++ rest)
        = Settings.ofArguments (before ++ [Argument.withValue .kinds v] ++ rest) ∧
      Settings.ofArguments (before ++ [Argument.withValue .kinds v] ++ rest)
        = .error (.unknownKind '-') := by
  intro before v rest
  refine ⟨value_attached_or_separate rest (by decide +kernel) ?_ (by decide), by decide +kernel⟩
  intro f
  cases f <;> decide +kernel

end DeclTags
