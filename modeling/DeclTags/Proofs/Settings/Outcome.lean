import DeclTags.Proofs.Settings.Separator
import DeclTags.Proofs.Settings.Reading

/-!
# The outcome of a command line

Once a command line has been read, its outcome is a matter of looking things
up. If it says that the run ends at once, the first place where it does decides,
wherever orders stand around it. If it does not, an order may still be refused
when its turn comes, and then the first order that is refused decides. And if
none is, every setting has the value that the last order gives it that gives it
one at all.

Orders may give a value to several settings or to none. So the settings are
looked at one by one, and carrying out an order is the same for each of them: the
value that the order gives, or else the value that there was (`Settings.give`).
Commands do what their orders say (`Settings.apply_eq`), so this carries over to
all commands of a command line (`Settings.foldlM_apply`).
-/

namespace DeclTags

open Utf8

/-- A format is found by its name. -/
theorem Format.lookup_eq_ofName? (name : String) :
    [("ctags", ctags), ("xref", xref), ("json", json)].lookup name = ofName? name := by
  simp only [ofName?, all, Format.name, List.lookup_cons, List.lookup_nil, List.find?_cons,
    List.find?_nil, BEq.comm (a := name)]

namespace Order

/-- How the run ends, if the order is refused. -/
def refusal? : Order → Option Exit
  | give _ => none
  | refuse e => some e

/-- The values that are given. -/
def given? : Order → Option Given
  | give values => some values
  | refuse _ => none

variable {α : Type}

/-- **The last value** that some orders give to a setting, or another one if
they give none. -/
def lastOr (setting? : Given → Option α) (orders : List Order) (otherwise : α) : α :=
  ((orders.filterMap given?).filterMap setting?).getLast?.getD otherwise

theorem lastOr_give (setting? : Given → Option α) (values : Given) (orders : List Order)
    (otherwise : α) : lastOr setting? (give values :: orders) otherwise
      = lastOr setting? orders ((setting? values).getD otherwise) := by
  show ((values :: orders.filterMap given?).filterMap setting?).getLast?.getD otherwise = _
  rw [List.filterMap_cons]
  cases setting? values with
  | none => rfl
  | some value =>
    dsimp only
    rw [List.getLast?_cons]
    rfl

end Order

namespace Settings

/-- The settings with some values. -/
def give (s : Settings) (values : Given) : Settings where
  paths := s.paths
  rules :=
    { comments := values.comments?.getD s.rules.comments
      strings := values.strings?.getD s.rules.strings
      cyrillic := values.cyrillic?.getD s.rules.cyrillic
      kinds := values.kinds?.getD s.rules.kinds }
  format := values.format?.getD s.format
  color := values.color?.getD s.color

/-- **Carrying out an order.** -/
def carryOut (s : Settings) : Order → Except Exit Settings
  | .give values => .ok (s.give values)
  | .refuse e => .error e

/-- **The settings after some orders**: each of them has the last value that it
is given. -/
def after (s : Settings) (orders : List Order) : Settings where
  paths := s.paths
  rules :=
    { comments := Order.lastOr Given.comments? orders s.rules.comments
      strings := Order.lastOr Given.strings? orders s.rules.strings
      cyrillic := Order.lastOr Given.cyrillic? orders s.rules.cyrillic
      kinds := Order.lastOr Given.kinds? orders s.rules.kinds }
  format := Order.lastOr Given.format? orders s.format
  color := Order.lastOr Given.color? orders s.color

theorem after_give (s : Settings) (values : Given) (orders : List Order) :
    s.after (.give values :: orders) = (s.give values).after orders := by
  simp only [after, Order.lastOr_give]
  rfl

/-- **Carrying out orders** ends at the first one that is refused. If none is,
every setting has its last value. -/
theorem foldlM_carryOut (s : Settings) (orders : List Order) :
    orders.foldlM carryOut s = match orders.findSome? Order.refusal? with
      | some e => .error e
      | none => .ok (s.after orders) := by
  induction orders generalizing s with
  | nil => rfl
  | cons o orders ih =>
    rw [List.foldlM_cons, List.findSome?_cons]
    cases o with
    | give values => exact (ih (s.give values)).trans (by rw [← after_give]; rfl)
    | refuse e => rfl

theorem letters_e8script (c : Char) :
    decide (c ∉ Language.e8script.letters) = decide (c ≠ 'f' ∧ c ≠ 'v') := by
  have hletters : Language.e8script.letters = ['f', 'v'] := rfl
  simp [hletters]

/-- **Carrying out a command** does what its order says. -/
theorem apply_eq (program : String) (s : Settings) (c : Command) :
    (s.apply c).mapError (Stop.exit program) = s.carryOut (c.order program) := by
  cases c with
  | kinds letters =>
    rw [apply, Language.select_e8script, Command.order, Order.ofKinds]
    simp only [letters_e8script]
    cases letters.toList.find? fun c => decide (c ≠ 'f' ∧ c ≠ 'v') with
    | some letter => exact congrArg Except.error (Stop.exit_of_complaint program rfl)
    | none => rfl
  | format name =>
    rw [apply, Command.order, Order.ofFormat, Format.lookup_eq_ofName?]
    cases Format.ofName? name with
    | some format => rfl
    | none => exact congrArg Except.error (Stop.exit_of_complaint program rfl)
  | kindTable => exact congrArg Except.error (Stop.exit_kindTable program)
  | languageTable => exact congrArg Except.error (Stop.exit_languageTable program)
  | _ => rfl

/-- **Carrying out commands** does what their orders say. -/
theorem foldlM_apply (program : String) (s : Settings) (commands : List Command) :
    (commands.foldlM apply s).mapError (Stop.exit program)
      = (commands.map (Command.order program)).foldlM carryOut s := by
  induction commands generalizing s with
  | nil => rfl
  | cons c commands ih =>
    rw [List.foldlM_cons, List.map_cons, List.foldlM_cons, ← apply_eq program s c]
    cases s.apply c with
    | error reason => rfl
    | ok next => exact ih next

theorem paths_withPaths (s : Settings) (paths : List Bytes) :
    (s.withPaths paths).paths = if paths = [] then s.paths else paths := by
  cases paths <;> rfl

theorem withPaths_eq (s : Settings) (paths : List Bytes) :
    s.withPaths paths = { s with paths := (s.withPaths paths).paths } := by
  cases paths <;> rfl

/-- **The settings of a command line** come of what the first pass finds in it,
whichever of the two ends the run. -/
theorem mapError_ofArguments (program : String) (arguments : List Bytes) :
    (ofArguments arguments).mapError (Stop.exit program)
      = (Command.said program (Command.ofEntries (Entry.ofArguments arguments))).bind fun x =>
          (x.1.foldlM carryOut {}).map fun s => s.withPaths x.2 := by
  rw [ofArguments_eq]
  cases Command.ofEntries (Entry.ofArguments arguments) with
  | error reason => rfl
  | ok x =>
    show ((x.1.foldlM apply {}).map fun s => s.withPaths x.2).mapError (Stop.exit program)
      = ((x.1.map (Command.order program)).foldlM carryOut {}).map fun s => s.withPaths x.2
    rw [← foldlM_apply]
    cases x.1.foldlM apply {} <;> rfl

/-- **The settings of a command line**, by what it says. -/
theorem ofArguments_of_comesTo {program : String} {arguments : List Bytes} {sayings : List Saying}
    (h : Command.said program (Command.ofEntries (Entry.ofArguments arguments))
      = Saying.comesTo sayings) :
    (ofArguments arguments).mapError (Stop.exit program) =
      match sayings.findSome? Saying.stop? with
      | some e => .error e
      | none =>
        match (sayings.filterMap Saying.order?).findSome? Order.refusal? with
        | some e => .error e
        | none => .ok ((after {} (sayings.filterMap Saying.order?)).withPaths
            (sayings.filterMap Saying.path?)) := by
  rw [mapError_ofArguments, h, Saying.comesTo]
  cases sayings.findSome? Saying.stop? with
  | some e => rfl
  | none =>
    show ((sayings.filterMap Saying.order?).foldlM carryOut {}).map _ = _
    rw [foldlM_carryOut]
    cases (sayings.filterMap Saying.order?).findSome? Order.refusal? <;> rfl

end Settings

/-- **A command line ends a run**, with a code and a text. -/
def Ends (program : String) (arguments : List Bytes) (e : Exit) : Prop :=
  ∃ reason : Stop, Settings.ofArguments arguments = .error reason ∧
    reason.exitCode = e.code ∧ reason.output program = e.text

theorem Ends.of_mapError {program : String} {arguments : List Bytes} {e : Exit}
    (h : (Settings.ofArguments arguments).mapError (Stop.exit program) = .error e) :
    Ends program arguments e := by
  cases hs : Settings.ofArguments arguments with
  | error reason =>
    rw [hs] at h
    obtain rfl := Except.error.inj h
    exact ⟨reason, hs, rfl, rfl⟩
  | ok s =>
    rw [hs] at h
    cases h

theorem Settings.eq_of_mapError {program : String} {arguments : List Bytes} {s : Settings}
    (h : (ofArguments arguments).mapError (Stop.exit program) = .ok s) :
    ofArguments arguments = .ok s := by
  cases hs : ofArguments arguments with
  | error reason =>
    rw [hs] at h
    cases h
  | ok s' =>
    rw [hs] at h
    exact congrArg Except.ok (Except.ok.inj h)

/-- **The outcome of a command line.** It can be read, in one way only. If it
says that the run ends at once, the first place where it does gives the code and
the text. If not, the first order that is refused does. And otherwise every
setting has the last value that it is given, or the one that it has by
default. -/
theorem outcome_of_reading (program : String) (arguments : List Bytes) :
    ∃ sayings, Says program arguments (Entry.ofArguments arguments) sayings ∧
      (∀ other, Says program arguments (Entry.ofArguments arguments) other → other = sayings) ∧
      (∀ e, sayings.findSome? Saying.stop? = some e → Ends program arguments e) ∧
      (sayings.findSome? Saying.stop? = none →
        let orders := sayings.filterMap Saying.order?
        let paths := sayings.filterMap Saying.path?
        (∀ e, orders.findSome? Order.refusal? = some e → Ends program arguments e) ∧
        (orders.findSome? Order.refusal? = none →
          ∃ s, Settings.ofArguments arguments = .ok s ∧
            s.rules.comments = Order.lastOr Given.comments? orders true ∧
            s.rules.strings = Order.lastOr Given.strings? orders true ∧
            s.rules.cyrillic = Order.lastOr Given.cyrillic? orders true ∧
            s.rules.kinds = Order.lastOr Given.kinds? orders .all ∧
            s.format = Order.lastOr Given.format? orders .ctags ∧
            s.color = Order.lastOr Given.color? orders .auto ∧
            s.paths = if paths = [] then [ofString "./"] else paths)) := by
  obtain ⟨sayings, hread, hpass⟩ := exists_says program arguments
  have hsettings := Settings.ofArguments_of_comesTo hpass
  refine ⟨sayings, hread, fun other => hread.unique, fun e hstop => ?_, fun hstop => ?_⟩
  · rw [hstop] at hsettings
    exact .of_mapError hsettings
  · rw [hstop] at hsettings
    refine ⟨fun e hrefusal => ?_, fun hrefusal => ?_⟩
    · rw [hrefusal] at hsettings
      exact .of_mapError hsettings
    · rw [hrefusal] at hsettings
      refine ⟨_, Settings.eq_of_mapError hsettings, ?_⟩
      rw [Settings.withPaths_eq]
      exact ⟨rfl, rfl, rfl, rfl, rfl, rfl, Settings.paths_withPaths _ _⟩

/-- A command line that gives three settings a value, takes it back in one go,
and gives it anew to one of them. And one that asks for a format that does not
exist and for a table, and ends because of a flag behind both. -/
theorem outcome_of_reading_overwritten :
    let arguments : List Bytes :=
      ["--kinds=v", "--legacy", "--comments", "--format", "json", "--", "-x"].map ofString
    let mistaken : List Bytes := ["--format=yaml", "--list-kinds", "-xq"].map ofString
    Says "e8tags" arguments (Entry.ofArguments arguments)
        [.order (.give { kinds? := some ⟨false, true⟩ }),
          .order (.give
            { comments? := some false, strings? := some false, cyrillic? := some false }),
          .order (.give { comments? := some true }), .order (.give { format? := some .json }),
          .path (ofString "-x")] ∧
      (∃ s, Settings.ofArguments arguments = .ok s ∧ s.rules = ⟨true, false, false, ⟨false, true⟩⟩ ∧
        s.format = .json ∧ s.color = .auto ∧ s.paths = [ofString "-x"]) ∧
      Ends "e8tags" mistaken ⟨1, "Unknown flag: -q\nUsage: e8tags [OPTION]... [PATH]...\n"
        ++ "Pass --help for more information.\n"⟩ := by
  intro arguments mistaken
  have hentries : Entry.ofArguments arguments
      = [⟨.long "kinds" "--kinds=v", 1⟩, ⟨.attached "v", 1⟩, ⟨.long "legacy" "--legacy", 2⟩,
        ⟨.long "comments" "--comments", 3⟩, ⟨.long "format" "--format", 4⟩,
        ⟨.positional (ofString "json"), 5⟩, ⟨.positional (ofString "-x"), 7⟩] := by
    decide +kernel
  have hvalue : Says "e8tags" arguments
      [⟨.long "format" "--format", 4⟩, ⟨.positional (ofString "json"), 5⟩,
        ⟨.positional (ofString "-x"), 7⟩]
      [.order (.ofFormat "e8tags" (lossy (ofString "json"))), .path (ofString "-x")] := by
    have split {e f : Entry} : [e, f] = [e] ++ [f] := rfl
    exact .separate rfl rfl (by decide : 4 < 5) rfl split (by decide) (by decide) (by decide)
      (.alone rfl .nothing)
  rw [lossy_ofString] at hvalue
  have hread : Says "e8tags" arguments (Entry.ofArguments arguments)
      [.order (.ofKinds "e8tags" "v"),
        .order (.give { comments? := some false, strings? := some false, cyrillic? := some false }),
        .order (.give { comments? := some true }), .order (.ofFormat "e8tags" "json"),
        .path (ofString "-x")] := by
    rw [hentries]
    exact .attached (e := ⟨_, 1⟩) rfl rfl (.alone rfl (.alone rfl hvalue))
  have hmistaken : Says "e8tags" mistaken (Entry.ofArguments mistaken)
      [.order (.ofFormat "e8tags" "yaml"), .order (.refuse .kinds),
        .order (.give { format? := some .xref }),
        .stop (.mistake "e8tags" "Unknown flag: -q")] := by
    have hentries : Entry.ofArguments mistaken
        = [⟨.long "format" "--format=yaml", 1⟩, ⟨.attached "yaml", 1⟩,
          ⟨.long "list-kinds" "--list-kinds", 2⟩, ⟨.short 'x' "-xq", 3⟩, ⟨.short 'q' "-xq", 3⟩] := by
      decide +kernel
    rw [hentries]
    exact .attached (e := ⟨_, 1⟩) rfl rfl (.alone rfl (.alone rfl (.alone rfl .nothing)))
  obtain ⟨sayings, -, hunique, -, hdone⟩ := outcome_of_reading "e8tags" arguments
  obtain rfl := hunique _ hread
  obtain ⟨-, hset⟩ := hdone (by decide)
  obtain ⟨s, hs, hcomments, hstrings, hcyrillic, hkinds, hformat, hcolor, hpaths⟩ :=
    hset (by decide +kernel)
  obtain ⟨sayings, -, hunique, hends, -⟩ := outcome_of_reading "e8tags" mistaken
  obtain rfl := hunique _ hmistaken
  refine ⟨hread, ⟨s, hs, ?_, hformat, hcolor, hpaths⟩, hends _ rfl⟩
  calc s.rules
    _ = ⟨s.rules.comments, s.rules.strings, s.rules.cyrillic, s.rules.kinds⟩ := rfl
    _ = ⟨true, false, false, ⟨false, true⟩⟩ := by
      rw [hcomments, hstrings, hcyrillic, hkinds]
      decide +kernel

end DeclTags
