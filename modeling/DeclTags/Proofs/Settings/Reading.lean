import DeclTags.Proofs.Settings.Table

/-!
# What a command line says

A command line says one thing after another: here an order, there a path, and
perhaps somewhere that the run ends. Which these are is a matter of reading, and
reading does not stop. Most entries say something by themselves. A flag that
needs a value says it together with that value, which is attached to it or else
is the text of the whole next argument that has entries; and if there is none of
either, what it says is that its value is missing. `Says` is that reading, as a
relation that mentions arguments where it means them and takes the meaning of
flags from tables (`DeclTags.Proofs.Settings.Table`).

The first pass reads in one go, stops at the first reason to stop, and takes
values from the entries alone. It comes to what the reading says
(`exists_says`): every command line can be read, in one way only
(`Says.unique`), and the pass finds the first end in it, or the orders and the
paths of all of it.
-/

namespace DeclTags

open Utf8

namespace Saying

/-- How the run ends at once, if it does. -/
def stop? : Saying → Option Exit
  | stop e => some e
  | _ => none

/-- The order, where there is one. -/
def order? : Saying → Option Order
  | order o => some o
  | _ => none

/-- The path to scan, where there is one. -/
def path? : Saying → Option Bytes
  | path bytes => some bytes
  | _ => none

/-- **What a reading comes to**: its first end, or else all its orders and all
its paths. -/
def comesTo (sayings : List Saying) : Except Exit (List Order × List Bytes) :=
  match sayings.findSome? stop? with
  | some e => .error e
  | none => .ok (sayings.filterMap order?, sayings.filterMap path?)

variable (sayings : List Saying)

theorem comesTo_order (o : Order) :
    comesTo (order o :: sayings) = (comesTo sayings).map fun x => (o :: x.1, x.2) := by
  unfold comesTo
  rw [List.findSome?_cons]
  dsimp only [stop?]
  cases sayings.findSome? stop? <;> rfl

theorem comesTo_path (bytes : Bytes) :
    comesTo (path bytes :: sayings) = (comesTo sayings).map fun x => (x.1, bytes :: x.2) := by
  unfold comesTo
  rw [List.findSome?_cons]
  dsimp only [stop?]
  cases sayings.findSome? stop? <;> rfl

end Saying

/-- **What some entries of a command line say**, from left to right. The
arguments are those of the whole command line, numbered from 1 as entries
number them. -/
inductive Says (program : String) (arguments : List Bytes) : List Entry → List Saying → Prop
  /-- Nothing is left to read. -/
  | nothing : Says program arguments [] []
  /-- An entry says something by itself. -/
  | alone {e : Entry} {saying : Saying} {es : List Entry} {sayings : List Saying}
      (itself : Saying.alone? program e.form = some saying) (rest : Says program arguments es sayings) :
      Says program arguments (e :: es) (saying :: sayings)
  /-- A flag takes the value that is attached to it. -/
  | attached {e : Entry} {name whole value : String} {about : String → Order} {es : List Entry}
      {sayings : List Saying} (flag : e.form = .long name whole)
      (needs : (Saying.valuedFlags program).lookup name = some about)
      (rest : Says program arguments es sayings) :
      Says program arguments (e :: ⟨.attached value, e.index⟩ :: es) (.order (about value) :: sayings)
  /-- A flag without one takes the text of the next argument that has entries,
  and with it all entries of that argument. -/
  | separate {e : Entry} {name whole : String} {about : String → Order} {n : Nat} {v : Bytes}
      {behind own es : List Entry} {sayings : List Saying} (flag : e.form = .long name whole)
      (needs : (Saying.valuedFlags program).lookup name = some about)
      (later : e.index < n) (value : arguments[n - 1]? = some v) (split : behind = own ++ es)
      (nonempty : own ≠ []) (all : ∀ f ∈ own, f.index = n) (others : ∀ f ∈ es, f.index ≠ n)
      (rest : Says program arguments es sayings) :
      Says program arguments (e :: behind) (.order (about (lossy v)) :: sayings)
  /-- A flag with nothing behind it lacks its value. -/
  | missing {e : Entry} {name whole : String} {about : String → Order}
      (flag : e.form = .long name whole)
      (needs : (Saying.valuedFlags program).lookup name = some about) :
      Says program arguments [e]
        [.stop (.mistake program ("Missing argument for --" ++ name))]

/-- The entries of one argument and those of others are told apart by their
numbers. -/
theorem eq_of_append_of_index {n : Nat} {own own' es es' : List Entry}
    (h : own ++ es = own' ++ es') (whole : ∀ f ∈ own, f.index = n)
    (whole' : ∀ f ∈ own', f.index = n) (others : ∀ f ∈ es, f.index ≠ n)
    (others' : ∀ f ∈ es', f.index ≠ n) : es = es' := by
  have hdrop {own es : List Entry} (whole : ∀ f ∈ own, f.index = n)
      (others : ∀ f ∈ es, f.index ≠ n) : (own ++ es).dropWhile (·.index == n) = es := by
    rw [List.dropWhile_append_of_pos fun f hf => beq_iff_eq.mpr (whole f hf)]
    cases es with
    | nil => rfl
    | cons f es =>
      exact List.dropWhile_cons_of_neg fun hf => others f List.mem_cons_self (beq_iff_eq.mp hf)
  rw [← hdrop whole others, h, hdrop whole' others']

variable {program : String} {arguments : List Bytes}

/-- A flag that needs a value says nothing by itself. -/
theorem Saying.alone?_ne_of_needs {form : Form} {name whole : String} {about : String → Order}
    (flag : form = .long name whole) (needs : (valuedFlags program).lookup name = some about)
    (saying : Saying) : alone? program form ≠ some saying := by
  rw [flag, alone?, needs]
  exact (Option.some_ne_none saying).symm

/-- A flag says the same of a value wherever it needs one. -/
theorem Saying.eq_of_needs {form : Form} {name name' whole whole' : String}
    {about about' : String → Order} (flag : form = .long name whole)
    (flag' : form = .long name' whole') (needs : (valuedFlags program).lookup name = some about)
    (needs' : (valuedFlags program).lookup name' = some about') : name' = name ∧ about' = about := by
  obtain ⟨rfl, -⟩ := Form.long.inj (flag.symm.trans flag')
  exact ⟨rfl, Option.some.inj (needs'.symm.trans needs)⟩

/-- **A command line can be read in one way only.** -/
theorem Says.unique {es : List Entry} {sayings other : List Saying}
    (h : Says program arguments es sayings) (hother : Says program arguments es other) :
    other = sayings := by
  induction h generalizing other with
  | nothing =>
    cases hother
    rfl
  | alone itself _ ih =>
    cases hother with
    | alone itself' rest => rw [Option.some.inj (itself'.symm.trans itself), ih rest]
    | attached flag needs | separate flag needs | missing flag needs =>
      exact absurd itself (Saying.alone?_ne_of_needs flag needs _)
  | attached flag needs _ ih =>
    cases hother with
    | alone itself => exact absurd itself (Saying.alone?_ne_of_needs flag needs _)
    | attached flag' needs' rest =>
      obtain ⟨-, rfl⟩ := Saying.eq_of_needs flag flag' needs needs'
      rw [ih rest]
    | separate _ _ later _ split nonempty all =>
      -- the entry behind the flag would come from its argument and from a later one
      obtain ⟨f, own, rfl⟩ := List.exists_cons_of_ne_nil nonempty
      obtain ⟨rfl, -⟩ := List.cons.inj split
      exact absurd (all _ List.mem_cons_self) (Nat.ne_of_lt later)
  | separate flag needs later value split nonempty all others _ ih =>
    obtain ⟨f, own, rfl⟩ := List.exists_cons_of_ne_nil nonempty
    cases hother with
    | alone itself => exact absurd itself (Saying.alone?_ne_of_needs flag needs _)
    | attached =>
      obtain ⟨rfl, -⟩ := List.cons.inj split
      exact absurd (all _ List.mem_cons_self) (Nat.ne_of_lt later)
    | separate flag' needs' later' value' split' nonempty' all' others' rest =>
      obtain ⟨f', own', rfl⟩ := List.exists_cons_of_ne_nil nonempty'
      obtain ⟨-, rfl⟩ := Saying.eq_of_needs flag flag' needs needs'
      obtain ⟨rfl, -⟩ := List.cons.inj (split.symm.trans split')
      obtain rfl := (all _ List.mem_cons_self).symm.trans (all' _ List.mem_cons_self)
      obtain rfl := Option.some.inj (value.symm.trans value')
      obtain rfl := eq_of_append_of_index (split.symm.trans split') all all' others others'
      rw [ih rest]
    | missing => exact absurd split (by simp)
  | missing flag needs =>
    cases hother with
    | alone itself => exact absurd itself (Saying.alone?_ne_of_needs flag needs _)
    | separate _ _ _ _ split nonempty =>
      exact absurd (List.append_eq_nil_iff.mp split.symm).1 nonempty
    | missing flag' needs' =>
      obtain ⟨rfl, -⟩ := Saying.eq_of_needs flag flag' needs needs'
      rfl

/-! ## The first pass reads -/

/-- What the first pass comes to, as it is said. -/
def Command.said (program : String) :
    Except Stop (List Command × List Bytes) → Except Exit (List Order × List Bytes)
  | .error reason => .error (reason.exit program)
  | .ok (commands, paths) => .ok (commands.map (order program), paths)

theorem Command.said_command (c : Command) (pass : Except Stop (List Command × List Bytes)) :
    said program (pass.map fun x => (c :: x.1, x.2))
      = (said program pass).map fun x => (c.order program :: x.1, x.2) := by
  cases pass <;> rfl

theorem Command.said_path (bytes : Bytes) (pass : Except Stop (List Command × List Bytes)) :
    said program (pass.map fun x => (x.1, bytes :: x.2))
      = (said program pass).map fun x => (x.1, bytes :: x.2) := by
  cases pass <;> rfl

/-- **The first pass understands some entries**: they can be read, and the
pass comes to what they say. -/
def Understood (program : String) (arguments : List Bytes) (es : List Entry) : Prop :=
  ∃ sayings, Says program arguments es sayings ∧
    Command.said program (Command.ofEntries es) = Saying.comesTo sayings

namespace Understood

open Command

variable {e v : Entry} {es more : List Entry} {flag : ValueFlag} {n : Nat}

theorem nothing : Understood program arguments [] :=
  ⟨[], .nothing, congrArg (said program) ofEntries_nil⟩

theorem alone (noValue : ∀ flag, Meaning.ofForm e.form ≠ .valued flag)
    (h : Understood program arguments es) : Understood program arguments (e :: es) := by
  obtain ⟨sayings, hread, hpass⟩ := h
  have hsays := Saying.alone?_eq program e.form
  cases hm : Meaning.ofForm e.form with
  | stop reason =>
    rw [hm] at hsays
    refine ⟨_, .alone hsays hread, ?_⟩
    rw [ofEntries_stop hm]
    rfl
  | command c =>
    rw [hm] at hsays
    refine ⟨_, .alone hsays hread, ?_⟩
    rw [ofEntries_command hm, said_command, hpass, Saying.comesTo_order]
  | path bytes =>
    rw [hm] at hsays
    refine ⟨_, .alone hsays hread, ?_⟩
    rw [ofEntries_path hm, said_path, hpass, Saying.comesTo_path]
  | valued flag => exact absurd hm (noValue flag)

/-- A flag that needs a value is a long one, with its name. -/
theorem exists_form (needs : Meaning.ofForm e.form = .valued flag) :
    ∃ whole, e.form = .long flag.name whole := by
  cases hform : e.form with
  | short letter whole =>
    rw [hform] at needs
    rcases Meaning.ofForm_short letter whole with ⟨reason, hm, -⟩ | ⟨c, hm⟩
    · exact absurd (hm.symm.trans needs) Meaning.noConfusion
    · exact absurd (hm.symm.trans needs) Meaning.noConfusion
  | long name whole =>
    rw [hform, Meaning.ofForm] at needs
    rcases Meaning.ofLong_cases name with ⟨reason, hm, -⟩ | ⟨c, hm⟩ | ⟨other, hm, rfl⟩
    · exact absurd (hm.symm.trans needs) Meaning.noConfusion
    · exact absurd (hm.symm.trans needs) Meaning.noConfusion
    · obtain rfl := Meaning.valued.inj (hm.symm.trans needs)
      exact ⟨whole, rfl⟩
  | attached value =>
    rw [hform] at needs
    exact Meaning.noConfusion needs
  | positional bytes =>
    rw [hform] at needs
    exact Meaning.noConfusion needs

theorem attached {value : String} (needs : Meaning.ofForm e.form = .valued flag)
    (others : ∀ f ∈ es, e.index ≠ f.index) (h : Understood program arguments es) :
    Understood program arguments (e :: ⟨.attached value, e.index⟩ :: es) := by
  obtain ⟨sayings, hread, hpass⟩ := h
  obtain ⟨whole, hform⟩ := exists_form needs
  refine ⟨_, .attached hform (Saying.lookup_name program flag) hread, ?_⟩
  have hvalue : lossy (⟨.attached value, e.index⟩ : Entry).whole = value := lossy_ofString value
  rw [ofEntries_valued needs, dropWhile_of_apart others, said_command, hpass, hvalue,
    Saying.comesTo_order]

/-- The value of its own is the whole argument that the first entry behind the
flag comes from. -/
theorem separate {a : Bytes} (needs : Meaning.ofForm e.form = .valued flag)
    (later : e.index < v.index) (value : arguments[v.index - 1]? = some a)
    (text : lossy v.whole = lossy a) (all : ∀ f ∈ more, f.index = v.index)
    (others : ∀ f ∈ es, v.index ≠ f.index) (h : Understood program arguments es) :
    Understood program arguments (e :: v :: (more ++ es)) := by
  obtain ⟨sayings, hread, hpass⟩ := h
  obtain ⟨whole, hform⟩ := exists_form needs
  have split : v :: (more ++ es) = (v :: more) ++ es := rfl
  refine ⟨_, .separate hform (Saying.lookup_name program flag) later value split
    (List.cons_ne_nil v more) (List.forall_mem_cons.mpr ⟨rfl, all⟩)
    (fun f hf => (others f hf).symm) hread, ?_⟩
  have hmore : more.dropWhile (·.index == v.index) = [] :=
    List.dropWhile_eq_nil_iff.mpr fun f hf => beq_iff_eq.mpr (all f hf)
  rw [ofEntries_valued needs, dropWhile_append_of_apart others, hmore, List.nil_append,
    said_command, hpass, text, Saying.comesTo_order]

theorem missing (needs : Meaning.ofForm e.form = .valued flag) :
    Understood program arguments [e] := by
  obtain ⟨whole, hform⟩ := exists_form needs
  refine ⟨_, .missing hform (Saying.lookup_name program flag), ?_⟩
  rw [ofEntries_missing needs, said, Stop.exit_of_complaint program rfl]
  rfl

/-- Behind the separator, every argument is a path. -/
theorem paths (n : Nat) (rest : List Bytes) :
    Understood program arguments (Entry.paths n rest) := by
  induction rest generalizing n with
  | nil => exact nothing
  | cons a rest ih => exact alone (fun _ => Meaning.noConfusion) (ih (n + 1))

/-- An argument that does not wait for a value is understood by itself. -/
theorem argument {a : Bytes} {forms : List Form} (hshape : Argument.Shape a forms)
    (hnone : Argument.valueFlag? a = none) (others : ∀ f ∈ es, n ≠ f.index)
    (h : Understood program arguments es) :
    Understood program arguments (forms.map (⟨·, n⟩) ++ es) := by
  cases hshape with
  | path => exact alone (fun _ => Meaning.noConfusion) h
  | @shorts letter letters =>
    generalize letter :: letters = letters
    induction letters with
    | nil => exact h
    | cons letter letters ih =>
      refine alone (fun flag hflag => ?_) ih
      rcases Meaning.ofForm_short letter (lossy a) with ⟨reason, hm, -⟩ | ⟨c, hm⟩
      · exact absurd (hm.symm.trans hflag) (by simp)
      · exact absurd (hm.symm.trans hflag) (by simp)
  | @long name text =>
    refine alone (fun flag hflag => ?_) h
    rcases Meaning.ofLong_cases (String.ofList name) with ⟨reason, hm, -⟩ | ⟨c, hm⟩ | ⟨flag, -, hname⟩
    · exact absurd (hm.symm.trans hflag) (by simp)
    · exact absurd (hm.symm.trans hflag) (by simp)
    · have hsome : Argument.valueFlag? a = some flag :=
        Argument.valueFlag?_of_toList (by rw [text, ← hname, String.toList_ofList])
      exact absurd (hsome.symm.trans hnone) (by simp)
  | @attached name value =>
    by_cases hvalued : ∃ flag, Meaning.ofLong (String.ofList name) = .valued flag
    · obtain ⟨flag, hflag⟩ := hvalued
      exact attached (e := ⟨.long (String.ofList name) (lossy a), n⟩) hflag others h
    · exact alone (fun flag hflag => hvalued ⟨flag, hflag⟩) (alone (fun _ => Meaning.noConfusion) h)

/-- A flag that waits for a value takes the argument behind it, if there is
one. -/
theorem valueFlag {a : Bytes} {front rest : List Bytes} (hflag : Argument.valueFlag? a = some flag)
    (hn : n = front.length + 1)
    (h : ∀ v rest', rest = v :: rest' → v ≠ Argument.separator →
      Understood program (front ++ a :: rest) (Entry.ofArgumentsFrom (n + 2) rest')) :
    Understood program (front ++ a :: rest) (Entry.ofArgumentsFrom n (a :: rest)) := by
  subst hn
  have needs : Meaning.ofForm (⟨.long flag.name (lossy a), front.length + 1⟩ : Entry).form
      = .valued flag := Meaning.ofLong_name flag
  rw [Entry.ofArgumentsFrom_cons (Argument.ofArgument?_of_valueFlag? hflag), List.map_singleton,
    List.singleton_append]
  match rest with
  | [] => exact missing needs
  | v :: rest =>
    by_cases hv : v = Argument.separator
    · subst hv
      rw [Argument.ofArgumentsFrom_separator]
      match rest with
      | [] => exact missing needs
      | w :: rest =>
        -- the separator has no entries, so the value stands behind it
        have hlater : front.length + 1 < front.length + 3 := by omega
        exact separate (v := ⟨.positional w, front.length + 3⟩) (a := w) needs hlater
          (by simp) rfl (List.forall_mem_nil _)
          (fun f hf => Nat.ne_of_lt (Entry.index_of_mem_paths hf).1) (paths _ rest)
    · obtain ⟨f, more, hforms, -, htext⟩ := Argument.exists_role hv
      rw [Entry.ofArgumentsFrom_cons hforms, List.map_cons, List.cons_append]
      refine separate (v := ⟨f, front.length + 2⟩) needs (Nat.lt_succ_self _) (by simp) htext ?_
        (fun e he => Nat.ne_of_lt (Entry.index_of_mem he).1) (h v rest rfl hv)
      intro e he
      obtain ⟨form, -, rfl⟩ := List.mem_map.mp he
      rfl

end Understood

/-- **The first pass understands every command line**, from each of its
arguments on. -/
theorem understood_ofArgumentsFrom (program : String) (front rest : List Bytes) :
    Understood program (front ++ rest) (Entry.ofArgumentsFrom (front.length + 1) rest) := by
  induction hlength : rest.length using Nat.strongRecOn generalizing front rest with
  | _ m ih =>
    subst hlength
    match rest with
    | [] => exact .nothing
    | a :: rest =>
      by_cases ha : a = Argument.separator
      · subst ha
        rw [Argument.ofArgumentsFrom_separator]
        exact .paths _ rest
      · cases hflag : Argument.valueFlag? a with
        | none =>
          obtain ⟨forms, hforms, hshape⟩ := Argument.exists_shape ha
          rw [Entry.ofArgumentsFrom_cons hforms]
          have hrest := ih _ (Nat.lt_succ_self _) (front ++ [a]) rest rfl
          rw [List.append_assoc, List.length_append] at hrest
          exact .argument hshape hflag
            (fun e he => Nat.ne_of_lt (Entry.index_of_mem he).1) hrest
        | some flag =>
          refine .valueFlag hflag rfl fun v rest' hrest' _ => ?_
          subst hrest'
          have hrest := ih _ (Nat.lt_succ_of_lt (Nat.lt_succ_self _)) (front ++ [a, v]) rest' rfl
          rw [List.append_assoc, List.length_append] at hrest
          exact hrest

/-- **Every command line can be read**, and the first pass comes to what it
says. -/
theorem exists_says (program : String) (arguments : List Bytes) :
    Understood program arguments (Entry.ofArguments arguments) :=
  understood_ofArgumentsFrom program [] arguments

end DeclTags
