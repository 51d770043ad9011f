import DeclTags.Proofs.Settings.Forms

/-!
# Arguments by their text

The first pass goes through entries, and an argument may have several. What a
user thinks of are arguments: one is a path, the next a flag, and the one
behind it perhaps the value of that flag. Here the pass is brought back to
arguments. By its text alone an argument is a path (`isPath`), or a flag that
waits for a value (`valueFlag?`), or a flag that is complete in itself
(`exists_role`). Only the second kind looks beyond itself, and it takes the
next argument whole, whatever that looks like (`ofEntries_valueFlag`).

So the paths among some arguments are known from their texts (`paths`), and so
is whether the last of them still waits for a value (`awaited?`). The
separator matters there: it has no entry, so a flag that waits in front of it
takes its value from behind it. Where none waits, the separator does what it
is for (`ofEntries_append_separator`).
-/

namespace DeclTags

open Utf8

namespace Argument

/-- **The flag that an argument is**, if it is one that takes the next
argument as its value. -/
def valueFlag? (a : Bytes) : Option ValueFlag :=
  if lossy a = "--format" then some .format
  else if lossy a = "--kinds" then some .kinds
  else none

/-- **Is an argument a path**, where it is not the value of a flag? It is one
if it does not start with a dash, or is nothing but that dash. -/
def isPath (a : Bytes) : Bool :=
  match (lossy a).toList with
  | '-' :: _ :: _ => false
  | _ => true

/-- **The paths among some arguments**: those that are paths and not the value
of the flag before them. -/
def paths : List Bytes → List Bytes
  | [] => []
  | [a] => if isPath a then [a] else []
  | a :: v :: rest =>
    if (valueFlag? a).isSome then paths rest
    else if isPath a then a :: paths (v :: rest)
    else paths (v :: rest)

/-- **The flag that still waits for its value** at the end of some
arguments. -/
def awaited? : List Bytes → Option ValueFlag
  | [] => none
  | [a] => valueFlag? a
  | a :: v :: rest => if (valueFlag? a).isSome then awaited? rest else awaited? (v :: rest)

theorem lossy_of_valueFlag? {a : Bytes} {flag : ValueFlag} (h : valueFlag? a = some flag) :
    lossy a = "--" ++ flag.name := by
  unfold valueFlag? at h
  split at h
  · obtain rfl := Option.some.inj h
    assumption
  · split at h
    · obtain rfl := Option.some.inj h
      assumption
    · exact absurd h (by simp)

theorem valueFlag?_of_lossy {a : Bytes} {flag : ValueFlag} (h : lossy a = "--" ++ flag.name) :
    valueFlag? a = some flag := by
  cases flag with
  | format => exact if_pos h
  | kinds => exact (if_neg (by rw [h]; decide)).trans (if_pos h)

end Argument

/-! ## Flags -/

namespace Meaning

/-- A short flag stands for itself. -/
theorem ofForm_short (letter : Char) (text : String) :
    (∃ reason, ofForm (.short letter text) = .stop reason ∧ ∀ flag, reason ≠ .missingValue flag) ∨
      ∃ c, ofForm (.short letter text) = .command c := by
  by_cases hh : letter = 'h'
  · subst hh
    exact .inl ⟨.usage, rfl, fun _ => Stop.noConfusion⟩
  · by_cases hx : letter = 'x'
    · subst hx
      exact .inr ⟨_, rfl⟩
    · refine .inl ⟨.unknownShort letter, ?_, fun _ => Stop.noConfusion⟩
      rw [ofForm]
      · exact hh
      · exact hx

/-- A long flag stands for itself or needs a value, as its name says. -/
theorem ofLong_cases (name : String) :
    (∃ reason, ofLong name = .stop reason ∧ ∀ flag, reason ≠ .missingValue flag) ∨
      (∃ c, ofLong name = .command c) ∨ ∃ flag, ofLong name = .valued flag ∧ name = flag.name := by
  unfold ofLong
  split
  case h_1 => exact .inl ⟨.help, rfl, fun _ => Stop.noConfusion⟩
  case h_2 => exact .inr (.inr ⟨.format, rfl, rfl⟩)
  case h_3 => exact .inr (.inr ⟨.kinds, rfl, rfl⟩)
  case h_15 => exact .inl ⟨.unknownLong name, rfl, fun _ => Stop.noConfusion⟩
  all_goals exact .inr (.inl ⟨_, rfl⟩)

theorem ofLong_name (flag : ValueFlag) : ofLong flag.name = .valued flag := by
  cases flag <;> rfl

end Meaning

namespace Argument

open Command

/-- **Entries that need no others**: all of them are commands, or the first
pass stops at one of them, and not for want of a value. -/
inductive SelfContained (es : List Entry) : Prop
  /-- They are commands. -/
  | commands {commands : List Command} (read : ofEntries es = .ok (commands, []))
  /-- One of them is a reason to stop. -/
  | stop {reason : Stop} (refused : ofEntries es = .error reason)
      (noValue : ∀ flag, reason ≠ .missingValue flag)

namespace SelfContained

variable {e v : Entry} {es : List Entry}

theorem of_stop {reason : Stop} (h : Meaning.ofForm e.form = .stop reason)
    (hreason : ∀ flag, reason ≠ .missingValue flag) : SelfContained (e :: es) :=
  .stop (ofEntries_stop h) hreason

theorem of_command {c : Command} (h : Meaning.ofForm e.form = .command c)
    (hes : SelfContained es) : SelfContained (e :: es) := by
  cases hes with
  | commands read => exact .commands ((ofEntries_command h).trans (congrArg _ read))
  | stop refused noValue =>
    exact .stop ((ofEntries_command h).trans (congrArg _ refused)) noValue

/-- Short flags need nothing else. -/
theorem shorts (letters : List Char) (text : String) (n : Nat) :
    SelfContained ((letters.map (Form.short · text)).map (⟨·, n⟩)) := by
  induction letters with
  | nil => exact .commands ofEntries_nil
  | cons letter letters ih =>
    rcases Meaning.ofForm_short letter text with ⟨reason, h, hreason⟩ | ⟨c, h⟩
    · exact of_stop h hreason
    · exact of_command h ih

/-- A long flag with a value attached to it needs nothing else. -/
theorem attached (name text value : String) (n : Nat) :
    SelfContained ([Form.long name text, Form.attached value].map (⟨·, n⟩)) := by
  rcases Meaning.ofLong_cases name with ⟨reason, h, hreason⟩ | ⟨c, h⟩ | ⟨flag, h, -⟩
  · exact of_stop h hreason
  · have hvalue : Meaning.ofForm (⟨.attached value, n⟩ : Entry).form
        = .stop (.unexpectedValue value) := rfl
    exact of_command h (of_stop hvalue fun _ => Stop.noConfusion)
  · have hlong : Meaning.ofForm (⟨.long name text, n⟩ : Entry).form = .valued flag := h
    exact .commands ((ofEntries_valued hlong).trans (congrArg _ ofEntries_nil))

/-- A long flag that takes no value needs nothing else. -/
theorem long {name : String} (h : ∀ flag : ValueFlag, name ≠ flag.name) (text : String) (n : Nat) :
    SelfContained ([Form.long name text].map (⟨·, n⟩)) := by
  rcases Meaning.ofLong_cases name with ⟨reason, hm, hreason⟩ | ⟨c, hm⟩ | ⟨flag, -, hname⟩
  · exact of_stop hm hreason
  · exact of_command hm (.commands ofEntries_nil)
  · exact absurd hname (h flag)

theorem complete (h : SelfContained es) (flag : ValueFlag) :
    ofEntries es ≠ .error (.missingValue flag) := by
  intro hmissing
  cases h with
  | commands read => exact absurd (read.symm.trans hmissing) (by simp)
  | stop refused noValue => exact noValue flag (Except.error.inj (refused.symm.trans hmissing))

end SelfContained

/-! ## Roles of arguments -/

/-- **What an argument is by its text**, with the forms that it has. -/
inductive Role (a : Bytes) : List Form → Prop
  /-- A path. -/
  | path (isPath : isPath a = true) (noFlag : valueFlag? a = none) : Role a [.positional a]
  /-- A flag that takes the next argument as its value. -/
  | valueFlag {flag : ValueFlag} (isFlag : valueFlag? a = some flag) :
      Role a [.long flag.name (lossy a)]
  /-- One flag or several that need no other argument. -/
  | flags {forms : List Form} (noPath : isPath a = false) (noFlag : valueFlag? a = none)
      (contained : ∀ n, SelfContained (forms.map (⟨·, n⟩))) : Role a forms

variable {a : Bytes} {flag : ValueFlag}

/-- The text of a flag that takes a value starts with two dashes, and the name
of the flag follows. -/
theorem toList_of_valueFlag? (h : valueFlag? a = some flag) :
    (lossy a).toList = '-' :: '-' :: flag.name.toList := by
  rw [lossy_of_valueFlag? h, String.toList_append]
  rfl

theorem valueFlag?_of_toList (h : (lossy a).toList = '-' :: '-' :: flag.name.toList) :
    valueFlag? a = some flag := by
  refine valueFlag?_of_lossy (String.toList_inj.mp ?_)
  rw [h, String.toList_append]
  rfl

/-- An argument that does not start with two dashes is no flag that takes a
value. -/
theorem valueFlag?_eq_none (h : ∀ body, (lossy a).toList ≠ '-' :: '-' :: body) :
    valueFlag? a = none := by
  cases hflag : valueFlag? a with
  | none => rfl
  | some flag => exact absurd (toList_of_valueFlag? hflag) (h _)

/-- The name of a flag is what stands behind the two dashes. -/
theorem eq_of_valueFlag? {body : List Char} (h : (lossy a).toList = '-' :: '-' :: body)
    (hflag : valueFlag? a = some flag) : body = flag.name.toList := by
  rw [toList_of_valueFlag? hflag] at h
  exact (List.cons.inj (List.cons.inj h).2).2.symm

theorem isPath_eq_false {c : Char} {more : List Char} (h : (lossy a).toList = '-' :: c :: more) :
    isPath a = false := by
  rw [isPath, h]
  rfl

theorem isPath_eq_true (h : ∀ c more, (lossy a).toList ≠ '-' :: c :: more) : isPath a = true := by
  unfold isPath
  split
  · exact absurd ‹_› (h _ _)
  · rfl

/-- **Every argument but the separator has its role**, and its first form
tells its whole text. -/
theorem exists_role (h : a ≠ separator) :
    ∃ f more, Form.ofArgument? a = some (f :: more) ∧ Role a (f :: more) ∧
      lossy f.whole = lossy a := by
  obtain ⟨forms, hforms, hshape⟩ := exists_shape h
  cases hshape with
  | path text =>
    exact ⟨_, _, hforms, .path (isPath_eq_true text) (valueFlag?_eq_none fun body => text '-' body),
      rfl⟩
  | @shorts letter letters text single =>
    refine ⟨_, _, hforms, .flags (isPath_eq_false text) (valueFlag?_eq_none fun body hbody => ?_)
      (SelfContained.shorts (letter :: letters) (lossy a)), lossy_ofString _⟩
    exact single (List.cons.inj (List.cons.inj (text.symm.trans hbody)).2).1
  | @long name text =>
    refine ⟨_, _, hforms, ?_, lossy_ofString _⟩
    cases hflag : valueFlag? a with
    | some flag =>
      rw [eq_of_valueFlag? text hflag, String.ofList_toList]
      exact .valueFlag hflag
    | none =>
      refine .flags (isPath_eq_false text) hflag (SelfContained.long (fun flag he => ?_) _)
      have hsome : valueFlag? a = some flag :=
        valueFlag?_of_toList (by rw [text, ← he, String.toList_ofList])
      exact absurd (hsome.symm.trans hflag) (by simp)
  | @attached name value text plain =>
    refine ⟨_, _, hforms, .flags (isPath_eq_false text) ?_ (SelfContained.attached _ _ _),
      lossy_ofString _⟩
    cases hflag : valueFlag? a with
    | none => rfl
    | some flag =>
      -- there is no equals sign in the names of these flags
      have hmem : '=' ∈ flag.name.toList := by
        rw [← eq_of_valueFlag? text hflag]
        exact List.mem_append_right name List.mem_cons_self
      exact absurd hmem (by cases flag <;> decide)

theorem ofArgument?_of_valueFlag? (h : valueFlag? a = some flag) :
    Form.ofArgument? a = some [.long flag.name (lossy a)] := by
  have ha : a ≠ separator := by
    rintro rfl
    have hnone : valueFlag? separator = none := by decide +kernel
    exact absurd (h.symm.trans hnone) (by simp)
  obtain ⟨f, more, hforms, hrole, -⟩ := exists_role ha
  rw [hforms]
  generalize f :: more = forms at hrole
  cases hrole with
  | path _ hnone | flags _ hnone => exact absurd (h.symm.trans hnone) (by simp)
  | valueFlag hflag =>
    obtain rfl := Option.some.inj (h.symm.trans hflag)
    rfl

/-! ## Arguments one after another -/

variable {v : Bytes} {rest : List Bytes} {n : Nat}

theorem paths_of_isPath (hpath : isPath a = true) (hflag : valueFlag? a = none) :
    paths (a :: rest) = a :: paths rest := by
  cases rest with
  | nil => exact if_pos hpath
  | cons v rest => rw [paths, hflag, hpath]; rfl

theorem paths_of_flags (hpath : isPath a = false) (hflag : valueFlag? a = none) :
    paths (a :: rest) = paths rest := by
  cases rest with
  | nil => exact if_neg (by rw [hpath]; exact Bool.false_ne_true)
  | cons v rest => rw [paths, hflag, hpath]; rfl

theorem paths_of_valueFlag (h : valueFlag? a = some flag) :
    paths (a :: v :: rest) = paths rest := by
  rw [paths, h]
  rfl

theorem awaited?_of_not_valueFlag (h : valueFlag? a = none) :
    awaited? (a :: rest) = awaited? rest := by
  cases rest with
  | nil => exact h
  | cons v rest => rw [awaited?, h]; rfl

theorem awaited?_of_valueFlag (h : valueFlag? a = some flag) :
    awaited? (a :: v :: rest) = awaited? rest := by
  rw [awaited?, h]
  rfl

/-- The entries of one argument come from no later one. -/
theorem apart_cons (forms : List Form) (n : Nat) (rest : List Bytes) :
    Entry.Apart (forms.map (⟨·, n⟩)) (Entry.ofArgumentsFrom (n + 1) rest) := by
  intro e he f hf
  obtain ⟨form, -, rfl⟩ := List.mem_map.mp he
  exact Nat.ne_of_lt (Entry.index_of_mem hf).1

/-- **A flag takes the next argument whole** as its value, whatever that looks
like. -/
theorem ofEntries_valueFlag (h : valueFlag? a = some flag) (hv : v ≠ separator) :
    ofEntries (Entry.ofArgumentsFrom n (a :: v :: rest))
      = (ofEntries (Entry.ofArgumentsFrom (n + 2) rest)).map fun x =>
          (flag.command (lossy v) :: x.1, x.2) := by
  obtain ⟨f, more, hforms, -, hwhole⟩ := exists_role hv
  have hvalued : Meaning.ofForm (⟨.long flag.name (lossy a), n⟩ : Entry).form = .valued flag :=
    Meaning.ofLong_name flag
  have hapart : ∀ e ∈ Entry.ofArgumentsFrom (n + 2) rest, (⟨f, n + 1⟩ : Entry).index ≠ e.index :=
    fun e he => Nat.ne_of_lt (Entry.index_of_mem he).1
  have hmore : (more.map (⟨·, n + 1⟩)).dropWhile
      (fun e : Entry => e.index == (⟨f, n + 1⟩ : Entry).index) = [] := by
    refine List.dropWhile_eq_nil_iff.mpr fun e he => ?_
    obtain ⟨form, -, rfl⟩ := List.mem_map.mp he
    exact beq_self_eq_true _
  rw [Entry.ofArgumentsFrom_cons (ofArgument?_of_valueFlag? h), Entry.ofArgumentsFrom_cons hforms,
    List.map_cons, List.map_nil, List.map_cons, List.cons_append, List.nil_append,
    List.cons_append, ofEntries_valued hvalued, dropWhile_append_of_apart hapart, hmore,
    List.nil_append]
  rw [show (⟨f, n + 1⟩ : Entry).whole = f.whole from rfl, hwhole]

/-- **What the first pass comes to** over arguments in front of the
separator. -/
inductive Passes (arguments : List Bytes) : Except Stop (List Command × List Bytes) → Prop
  /-- It reads them all. -/
  | read (commands : List Command) (complete : awaited? arguments = none) :
      Passes arguments (.ok (commands, paths arguments))
  /-- The last one lacks its value. -/
  | missing {flag : ValueFlag} (awaited : awaited? arguments = some flag) :
      Passes arguments (.error (.missingValue flag))
  /-- It stops on the way. -/
  | stop {reason : Stop} (noValue : ∀ flag, reason ≠ .missingValue flag) :
      Passes arguments (.error reason)

/-- Commands in front, where they leave alone what the arguments are. -/
theorem Passes.map {arguments : List Bytes} {r : Except Stop (List Command × List Bytes)}
    (h : Passes rest r) (before : List Command) (found : List Bytes)
    (hpaths : paths arguments = found ++ paths rest)
    (hawaited : awaited? arguments = awaited? rest) :
    Passes arguments (r.map fun x => (before ++ x.1, found ++ x.2)) := by
  cases h with
  | read commands complete =>
    rw [Except.map, ← hpaths]
    exact .read _ (hawaited.trans complete)
  | missing awaited => exact .missing (hawaited.trans awaited)
  | stop noValue => exact .stop noValue

/-- **Induction along the arguments** in front of the separator: by the role of
the first, and over a flag together with its value. -/
theorem argument_induction {P : List Bytes → Prop} (nil : P [])
    (path : ∀ a rest, Form.ofArgument? a = some [.positional a] → isPath a = true →
      valueFlag? a = none → P rest → P (a :: rest))
    (flags : ∀ a rest forms, Form.ofArgument? a = some forms → isPath a = false →
      valueFlag? a = none → (∀ n, SelfContained (forms.map (⟨·, n⟩))) → P rest → P (a :: rest))
    (pending : ∀ a flag, valueFlag? a = some flag → P [a])
    (value : ∀ a flag v rest, valueFlag? a = some flag → v ≠ separator → P rest →
      P (a :: v :: rest))
    (arguments : List Bytes) (h : separator ∉ arguments) : P arguments := by
  induction hlength : arguments.length using Nat.strongRecOn generalizing arguments with
  | _ m ih =>
    subst hlength
    match arguments with
    | [] => exact nil
    | a :: rest =>
      obtain ⟨ha, hrest⟩ := List.ne_and_not_mem_of_not_mem_cons h
      have hlater : P rest := ih _ (Nat.lt_succ_self _) rest hrest rfl
      obtain ⟨f, more, hforms, hrole, -⟩ := exists_role ha.symm
      generalize f :: more = forms at hforms hrole
      cases hrole with
      | path hpath hflag => exact path a rest hforms hpath hflag hlater
      | flags hpath hflag contained => exact flags a rest _ hforms hpath hflag contained hlater
      | @valueFlag flag hflag =>
        match rest with
        | [] => exact pending a flag hflag
        | v :: rest =>
          obtain ⟨hv, hrest⟩ := List.ne_and_not_mem_of_not_mem_cons hrest
          refine value a flag v rest hflag hv.symm (ih _ ?_ rest hrest rfl)
          exact Nat.lt_succ_of_lt (Nat.lt_succ_self _)

/-- **The first pass over arguments in front of the separator** reads them by
their text: it finds the paths among them, and lacks a value only if the last
of them is a flag that waits for one. -/
theorem passes_ofEntries {arguments : List Bytes} (h : separator ∉ arguments) :
    ∀ n, Passes arguments (ofEntries (Entry.ofArgumentsFrom n arguments)) := by
  refine argument_induction (P := fun arguments => ∀ n,
    Passes arguments (ofEntries (Entry.ofArgumentsFrom n arguments)))
    ?nil ?path ?flags ?pending ?value arguments h
  case nil =>
    intro n
    rw [Entry.ofArgumentsFrom, ofEntries_nil]
    exact .read [] rfl
  case path =>
    intro a rest hforms hpath hflag ih n
    have hm : Meaning.ofForm (⟨.positional a, n⟩ : Entry).form = .path a := rfl
    rw [Entry.ofArgumentsFrom_cons hforms, List.map_singleton, List.singleton_append,
      ofEntries_path hm]
    exact (ih (n + 1)).map [] [a] (paths_of_isPath hpath hflag)
      (awaited?_of_not_valueFlag hflag)
  case flags =>
    intro a rest forms hforms hpath hflag contained ih n
    rw [Entry.ofArgumentsFrom_cons hforms,
      ofEntries_append (apart_cons forms n rest) (contained n).complete]
    cases contained n with
    | commands read =>
      rw [read]
      exact (ih (n + 1)).map _ [] (paths_of_flags hpath hflag)
        (awaited?_of_not_valueFlag hflag)
    | stop refused noValue =>
      rw [refused]
      exact .stop noValue
  case pending =>
    intro a flag hflag n
    have hm : Meaning.ofForm (⟨.long flag.name (lossy a), n⟩ : Entry).form = .valued flag :=
      Meaning.ofLong_name flag
    rw [Entry.ofArgumentsFrom_cons (ofArgument?_of_valueFlag? hflag), List.map_singleton,
      Entry.ofArgumentsFrom, List.append_nil, ofEntries_missing hm]
    exact .missing hflag
  case value =>
    intro a flag v rest hflag hv ih n
    rw [ofEntries_valueFlag hflag hv]
    exact (ih (n + 2)).map [_] [] (paths_of_valueFlag hflag)
      (awaited?_of_valueFlag hflag)

/-! ## Cutting a command line -/

theorem ofArgumentsFrom_append {arguments : List Bytes} (h : separator ∉ arguments)
    (n : Nat) (rest : List Bytes) :
    Entry.ofArgumentsFrom n (arguments ++ rest)
      = Entry.ofArgumentsFrom n arguments
        ++ Entry.ofArgumentsFrom (n + arguments.length) rest := by
  induction arguments generalizing n with
  | nil => rfl
  | cons a arguments ih =>
    obtain ⟨ha, harguments⟩ := List.ne_and_not_mem_of_not_mem_cons h
    obtain ⟨f, more, hforms, -, -⟩ := exists_role ha.symm
    rw [List.cons_append, Entry.ofArgumentsFrom_cons hforms, Entry.ofArgumentsFrom_cons hforms,
      ih harguments, List.append_assoc, List.length_cons, Nat.add_right_comm n 1, Nat.add_assoc n]

/-- Arguments of which none waits for a value lack none. -/
theorem complete_of_awaited? {arguments : List Bytes} (h : separator ∉ arguments)
    (hcomplete : awaited? arguments = none) (n : Nat) (flag : ValueFlag) :
    ofEntries (Entry.ofArgumentsFrom n arguments) ≠ .error (.missingValue flag) := by
  intro hmissing
  have hpasses := passes_ofEntries h n
  rw [hmissing] at hpasses
  cases hpasses with
  | missing awaited => exact absurd (awaited.symm.trans hcomplete) (by simp)
  | stop noValue => exact noValue flag rfl

/-- **The first pass can be cut between two arguments** in front of the
separator, unless the first of them waits for a value. -/
theorem ofEntries_append_arguments {arguments : List Bytes} (h : separator ∉ arguments)
    (hcomplete : awaited? arguments = none) (n : Nat) (rest : List Bytes) :
    ofEntries (Entry.ofArgumentsFrom n (arguments ++ rest))
      = (ofEntries (Entry.ofArgumentsFrom n arguments)).bind fun x =>
        (ofEntries (Entry.ofArgumentsFrom (n + arguments.length) rest)).map fun y =>
          (x.1 ++ y.1, x.2 ++ y.2) := by
  have hapart : Entry.Apart (Entry.ofArgumentsFrom n arguments)
      (Entry.ofArgumentsFrom (n + arguments.length) rest) := by
    intro e he f hf
    have he := Entry.index_of_mem he
    have hf := Entry.index_of_mem hf
    omega
  rw [ofArgumentsFrom_append h, ofEntries_append hapart (complete_of_awaited? h hcomplete n)]

/-! ## The separator -/

/-- Behind the separator every argument is a path. -/
theorem ofArgumentsFrom_separator :
    Entry.ofArgumentsFrom n (separator :: rest) = Entry.paths (n + 1) rest := by
  rw [Entry.ofArgumentsFrom, ofArgument?_separator]

/-- **Behind the separator every argument is a path**, and what stands in front
of it is read as it would be alone – unless the last of that is a flag that
waits for its value. -/
theorem ofEntries_append_separator {arguments : List Bytes} (h : separator ∉ arguments)
    (hcomplete : awaited? arguments = none) (rest : List Bytes) :
    ofEntries (Entry.ofArguments (arguments ++ separator :: rest))
      = (ofEntries (Entry.ofArguments arguments)).map fun x => (x.1, x.2 ++ rest) := by
  rw [Entry.ofArguments, Entry.ofArguments, ofEntries_append_arguments h hcomplete,
    ofArgumentsFrom_separator, ofEntries_paths]
  cases ofEntries (Entry.ofArgumentsFrom 1 arguments) with
  | error stop => rfl
  | ok x => exact congrArg (fun commands => Except.ok (commands, x.2 ++ rest)) (List.append_nil x.1)

/-- **A flag that waits for its value in front of the separator** takes it from
behind it. -/
theorem ofEntries_append_separator_of_awaited {arguments : List Bytes} (h : separator ∉ arguments)
    (hv : v ≠ separator) (hawaited : awaited? arguments = some flag) (rest : List Bytes) (n : Nat) :
    ofEntries (Entry.ofArgumentsFrom n (arguments ++ separator :: v :: rest))
      = ofEntries (Entry.ofArgumentsFrom n (arguments ++ v :: separator :: rest)) := by
  revert n
  refine argument_induction (P := fun arguments => awaited? arguments = some flag → ∀ n,
    ofEntries (Entry.ofArgumentsFrom n (arguments ++ separator :: v :: rest))
      = ofEntries (Entry.ofArgumentsFrom n (arguments ++ v :: separator :: rest)))
    ?nil ?path ?flags ?pending ?value arguments h hawaited
  case nil => exact fun hnil => absurd hnil (by simp [awaited?])
  case path =>
    intro a arguments hforms hpath hflag ih hawaited n
    have hm : Meaning.ofForm (⟨.positional a, n⟩ : Entry).form = .path a := rfl
    rw [List.cons_append, List.cons_append, Entry.ofArgumentsFrom_cons hforms,
      Entry.ofArgumentsFrom_cons hforms, List.map_singleton, List.singleton_append,
      List.singleton_append, ofEntries_path hm, ofEntries_path hm,
      ih (awaited?_of_not_valueFlag hflag ▸ hawaited)]
  case flags =>
    intro a arguments forms hforms hpath hflag contained ih hawaited n
    rw [List.cons_append, List.cons_append, Entry.ofArgumentsFrom_cons hforms,
      Entry.ofArgumentsFrom_cons hforms,
      ofEntries_append (apart_cons forms n _) (contained n).complete,
      ofEntries_append (apart_cons forms n _) (contained n).complete,
      ih (awaited?_of_not_valueFlag hflag ▸ hawaited)]
  case pending =>
    intro a waiting hflag hawaited n
    have hm : Meaning.ofForm (⟨.long waiting.name (lossy a), n⟩ : Entry).form = .valued waiting :=
      Meaning.ofLong_name waiting
    have hapart : ∀ e ∈ Entry.paths (n + 1 + 1 + 1) rest,
        (⟨.positional v, n + 1 + 1⟩ : Entry).index ≠ e.index :=
      fun e he => Nat.ne_of_lt (Entry.index_of_mem_paths he).1
    rw [List.singleton_append, List.singleton_append, ofEntries_valueFlag hflag hv,
      Entry.ofArgumentsFrom_cons (ofArgument?_of_valueFlag? hflag), List.map_singleton,
      List.singleton_append, ofArgumentsFrom_separator, ofArgumentsFrom_separator, Entry.paths,
      ofEntries_valued hm, dropWhile_of_apart hapart]
    rfl
  case value =>
    intro a waiting w arguments hflag hw ih hawaited n
    rw [List.cons_append, List.cons_append, List.cons_append, List.cons_append,
      ofEntries_valueFlag hflag hw, ofEntries_valueFlag hflag hw,
      ih (awaited?_of_valueFlag hflag ▸ hawaited)]

end Argument

end DeclTags
