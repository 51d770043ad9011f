import DeclTags.Proofs.Settings.Arguments

/-!
# Paths behind the separator

Two dashes end the flags: whatever comes behind them is a path, whether or not
it looks like one. So a script can hand on names that it does not know. It may
do so if what it puts in front of the separator is complete. Then the settings
are those of the flags in front, the paths are the paths in front and all
arguments behind, and nothing behind the separator has a say in anything else.

It may not if the last argument in front is a flag that waits for its value.
The separator has no entry, and that flag takes the first argument behind it
(`ofArguments_append_separator_of_awaited`).
-/

namespace DeclTags

open Utf8

namespace Settings

theorem ofArguments_eq (arguments : List Bytes) :
    ofArguments arguments = (Command.ofEntries (Entry.ofArguments arguments)).bind fun x =>
      (x.1.foldlM apply {}).map fun s => s.withPaths x.2 := by
  rw [ofArguments]
  cases Command.ofEntries (Entry.ofArguments arguments) with
  | error stop => rfl
  | ok x =>
    obtain ⟨commands, paths⟩ := x
    show (commands.foldlM apply {} >>= fun s => pure (s.withPaths paths))
      = (commands.foldlM apply {}).map fun s => s.withPaths paths
    cases commands.foldlM apply ({} : Settings) <;> rfl

/-- Arguments that settings come of lack no value. -/
theorem awaited?_of_ofArguments {arguments : List Bytes} (h : Argument.separator ∉ arguments)
    {s : Settings} (hs : ofArguments arguments = .ok s) : Argument.awaited? arguments = none := by
  have hpasses := Argument.passes_ofEntries h 1
  rw [ofArguments_eq, Entry.ofArguments] at hs
  generalize Command.ofEntries (Entry.ofArgumentsFrom 1 arguments) = pass at hpasses hs
  cases hpasses with
  | read _ complete => exact complete
  | missing | stop => exact absurd hs (by simp [Except.bind])

/-- **Settings with a separator**: the arguments in front of it decide on
everything but the paths. -/
theorem exists_ofArguments_append_separator {arguments : List Bytes}
    (h : Argument.separator ∉ arguments) (hcomplete : Argument.awaited? arguments = none) :
    ∃ r : Except Stop Settings,
      ofArguments arguments = r.map (·.withPaths (Argument.paths arguments)) ∧
        ∀ rest, rest ≠ [] → ofArguments (arguments ++ Argument.separator :: rest)
          = r.map fun s => { s with paths := Argument.paths arguments ++ rest } := by
  refine ⟨(Command.ofEntries (Entry.ofArguments arguments)).bind fun x => x.1.foldlM apply {},
    ?_, fun rest hrest => ?_⟩
  · have hpasses := Argument.passes_ofEntries h 1
    rw [ofArguments_eq, Entry.ofArguments]
    generalize Command.ofEntries (Entry.ofArgumentsFrom 1 arguments) = pass at hpasses ⊢
    cases hpasses <;> rfl
  · have hpasses := Argument.passes_ofEntries h 1
    rw [ofArguments_eq, Argument.ofEntries_append_separator h hcomplete, Entry.ofArguments]
    generalize Command.ofEntries (Entry.ofArgumentsFrom 1 arguments) = pass at hpasses ⊢
    cases hpasses with
    | read commands =>
      have hpaths (s : Settings) : s.withPaths (Argument.paths arguments ++ rest)
          = { s with paths := Argument.paths arguments ++ rest } :=
        if_neg (by simp [hrest])
      exact congrArg (Except.map · (commands.foldlM apply {})) (funext hpaths)
    | missing | stop => rfl

/-- **A flag that waits for its value in front of the separator** takes it from
behind it: the separator might as well stand behind that value. -/
theorem ofArguments_append_separator_of_awaited {arguments : List Bytes} {flag : ValueFlag}
    {v : Bytes} (h : Argument.separator ∉ arguments) (hv : v ≠ Argument.separator)
    (hawaited : Argument.awaited? arguments = some flag) (rest : List Bytes) :
    ofArguments (arguments ++ Argument.separator :: v :: rest)
      = ofArguments (arguments ++ v :: Argument.separator :: rest) := by
  rw [ofArguments_eq, ofArguments_eq, Entry.ofArguments, Entry.ofArguments,
    Argument.ofEntries_append_separator_of_awaited h hv hawaited]

end Settings

/-- **Everything behind the separator is a path**, and no more than that, if
the arguments in front of it are complete. -/
theorem paths_behind_separator {arguments rest : List Bytes} {s : Settings}
    (hseparator : Argument.separator ∉ arguments) (hrest : rest ≠ [])
    (hcomplete : Argument.awaited? arguments = none)
    (h : Settings.ofArguments (arguments ++ Argument.separator :: rest) = .ok s) :
    s.paths = Argument.paths arguments ++ rest ∧
      ∀ other, other ≠ [] → Settings.ofArguments (arguments ++ Argument.separator :: other)
        = .ok { s with paths := Argument.paths arguments ++ other } := by
  obtain ⟨r, -, hr⟩ := Settings.exists_ofArguments_append_separator hseparator hcomplete
  rw [hr rest hrest] at h
  cases r with
  | error stop => exact absurd h (by simp [Except.map])
  | ok base =>
    obtain rfl := Except.ok.inj h
    exact ⟨rfl, hr⟩

/-- A format and a path in front of the separator, and behind it what looks
like a flag and a path that is no text. -/
theorem paths_behind_separator_flag :
    let front : List Bytes := ["--format", "json", "a.os"].map ofString
    let rest : List Bytes := [ofString "--help", [0xFF]]
    let s : Settings := { format := .json, paths := [ofString "a.os", ofString "--help", [0xFF]] }
    Argument.separator ∉ front ∧ rest ≠ [] ∧ Argument.awaited? front = none ∧
      Settings.ofArguments (front ++ Argument.separator :: rest) = .ok s ∧
      s.paths = Argument.paths front ++ rest ∧
      Settings.ofArguments (front ++ Argument.separator :: [ofString "--kinds"])
        = .ok { s with paths := [ofString "a.os", ofString "--kinds"] } := by
  intro front rest s
  have hseparator : Argument.separator ∉ front := by decide +kernel
  have hrest : rest ≠ [] := by decide
  have hcomplete : Argument.awaited? front = none := by decide +kernel
  have h : Settings.ofArguments (front ++ Argument.separator :: rest) = .ok s := by decide +kernel
  obtain ⟨hpaths, hother⟩ := paths_behind_separator hseparator hrest hcomplete h
  refine ⟨hseparator, hrest, hcomplete, h, hpaths, (hother _ (by decide)).trans ?_⟩
  decide +kernel

/-- **Not everything behind the separator is a path** where a flag in front of
it waits for its value: here the format is taken from there. -/
theorem value_behind_separator :
    ¬ ∀ (arguments rest : List Bytes) (s : Settings), Argument.separator ∉ arguments → rest ≠ [] →
      Settings.ofArguments (arguments ++ Argument.separator :: rest) = .ok s →
      s.paths = Argument.paths arguments ++ rest := by
  intro hclaim
  have h : Settings.ofArguments ([ofString "--format"] ++ Argument.separator ::
      [ofString "json", ofString "a.os"])
      = .ok { format := .json, paths := [ofString "a.os"] } := by
    decide +kernel
  exact absurd (hclaim _ _ _ (by decide) (by decide) h) (by decide +kernel)

end DeclTags
