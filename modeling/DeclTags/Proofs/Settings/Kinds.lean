import DeclTags.Proofs.Scan.Kinds
import DeclTags.Proofs.Settings.Value

/-!
# Kinds by their letters

The kinds that are wanted are given by letters, any number of them in any
order. What counts is which letters occur: the kinds are those whose letter is
among them (`Language.select_e8script`). A letter that is not registered
selects nothing, and the first one of these is what is complained about
(`Language.select_eq`).

What is wanted has no influence on how a source is read, so the choice is a
filter on the tags of the scan that wants every kind. In particular a variable
keeps its scope when functions are not wanted.
-/

namespace DeclTags

open Utf8

/-- No two kinds have one letter. -/
theorem Kind.letter_inj {j k : Kind} (h : j.letter = k.letter) : j = k := by
  revert h
  cases j <;> cases k <;> decide

namespace KindSet

/-- A set of kinds is known by what it holds. -/
theorem eq_of_contains {s t : KindSet} (h : ∀ k, s.contains k = t.contains k) : s = t := by
  obtain ⟨function, var⟩ := s
  obtain ⟨function', var'⟩ := t
  obtain rfl : function = function' := h .function
  obtain rfl : var = var' := h .var
  rfl

/-- The set of the kinds whose letters occur in a text. -/
def lettered (text : String) : KindSet where
  function := Kind.function.letter ∈ text.toList
  var := Kind.var.letter ∈ text.toList

theorem contains_lettered (text : String) (k : Kind) :
    (lettered text).contains k = decide (k.letter ∈ text.toList) := by
  cases k <;> rfl

end KindSet

namespace Language

variable {l : Language}

/-- The letters that a language registers. -/
def letters (l : Language) : List Char := l.kinds.map (·.letter)

theorem byLetter?_eq_none_iff {letter : Char} : l.byLetter? letter = none ↔ letter ∉ l.letters := by
  rw [byLetter?, List.find?_eq_none, letters, List.mem_map]
  simp

theorem of_byLetter? {letter : Char} {entry : KindEntry} (h : l.byLetter? letter = some entry) :
    entry ∈ l.kinds ∧ entry.letter = letter := by
  have hletter := List.find?_some h
  exact ⟨List.mem_of_find?_eq_some h, eq_of_beq hletter⟩

/-- The kinds that some letters stand for. -/
def kindsOf (l : Language) (letters : List Char) : List Kind :=
  letters.filterMap fun c => (l.byLetter? c).map (·.kind)

/-- **Letters select their kinds**, unless one of them is not registered. Then
it is the first such letter that is reported. -/
theorem select_eq (l : Language) (text : String) :
    l.select text = match text.toList.find? (· ∉ l.letters) with
      | some letter => .error letter
      | none => .ok (KindSet.ofList (l.kindsOf text.toList)) := by
  have general (letters : List Char) : letters.mapM l.selectOne
      = match letters.find? (· ∉ l.letters) with
        | some letter => .error letter
        | none => .ok (l.kindsOf letters) := by
    induction letters with
    | nil => rfl
    | cons c rest ih =>
      rw [List.mapM_cons, selectOne, List.find?_cons, kindsOf, List.filterMap_cons, ih]
      cases hc : l.byLetter? c with
      | none =>
        rw [decide_eq_true (byLetter?_eq_none_iff.mp hc)]
        rfl
      | some entry =>
        have hmem : ¬ c ∉ l.letters := fun h => by simp [byLetter?_eq_none_iff.mpr h] at hc
        rw [decide_eq_false hmem]
        cases rest.find? (· ∉ l.letters) <;> rfl
  rw [select, general]
  cases text.toList.find? (· ∉ l.letters) <;> rfl

/-- A kind is registered with the letter that stands for it in a tags file. -/
theorem letter_eq_of_mem_e8script : ∀ entry ∈ e8script.kinds, entry.letter = entry.kind.letter := by
  decide

/-- Every kind is registered. -/
theorem letter_mem_e8script (k : Kind) : k.letter ∈ e8script.letters := by
  cases k <;> decide

/-- **The kinds that letters stand for** are those whose letter is among
them. -/
theorem mem_kindsOf_e8script {letters : List Char} {k : Kind} :
    k ∈ e8script.kindsOf letters ↔ k.letter ∈ letters := by
  rw [kindsOf, List.mem_filterMap]
  constructor
  · rintro ⟨c, hc, hk⟩
    obtain ⟨entry, hentry, rfl⟩ := Option.map_eq_some_iff.mp hk
    obtain ⟨hmem, rfl⟩ := of_byLetter? hentry
    rwa [← letter_eq_of_mem_e8script entry hmem]
  · intro hk
    refine ⟨k.letter, hk, ?_⟩
    cases hentry : e8script.byLetter? k.letter with
    | none => exact absurd (letter_mem_e8script k) (byLetter?_eq_none_iff.mp hentry)
    | some entry =>
      obtain ⟨hmem, hletter⟩ := of_byLetter? hentry
      rw [letter_eq_of_mem_e8script entry hmem] at hletter
      exact congrArg some (Kind.letter_inj hletter)

/-- **What letters select** are the kinds whose letters occur. -/
theorem select_e8script (text : String) :
    e8script.select text = match text.toList.find? (· ∉ e8script.letters) with
      | some letter => .error letter
      | none => .ok (KindSet.lettered text) := by
  have hset : KindSet.ofList (e8script.kindsOf text.toList) = KindSet.lettered text :=
    KindSet.eq_of_contains fun k => by
      rw [KindSet.contains_ofList, KindSet.contains_lettered, decide_eq_decide]
      exact mem_kindsOf_e8script
  rw [select_eq, hset]

end Language

/-- A command line that asks for kinds by their letters. -/
theorem Settings.ofArguments_kinds (text : String) :
    ofArguments [Argument.withValue .kinds (ofString text)]
      = match text.toList.find? (· ∉ Language.e8script.letters) with
        | some letter => .error (.unknownKind letter)
        | none => .ok { rules := { kinds := KindSet.lettered text } } := by
  rw [ofArguments_eq, Entry.ofArguments, Argument.ofEntries_attached, lossy_ofString,
    Entry.ofArgumentsFrom, Command.ofEntries_nil]
  show ([ValueFlag.kinds.command text].foldlM apply ({} : Settings)).map (·.withPaths []) = _
  rw [List.foldlM_cons]
  show (apply {} (.kinds text) >>= fun s => [].foldlM apply s).map (·.withPaths []) = _
  rw [apply, Language.select_e8script]
  cases text.toList.find? (· ∉ Language.e8script.letters) <;> rfl

/-- **The choice of kinds is a filter.** Letters are accepted if all of them
are registered, and otherwise the run fails with a complaint about the first
one that is not. With the kinds of accepted letters, a scan finds those of the
tags of all kinds whose letter is among them, and it finds them unchanged. -/
theorem kinds_only_filter (text : String) :
    let asked := Settings.ofArguments [ofString ("--kinds=" ++ text)]
    ((∃ s, asked = .ok s) ↔ ∀ c ∈ text.toList, c ∈ Language.e8script.letters) ∧
    (∀ before c after, text.toList = before ++ c :: after →
      (∀ b ∈ before, b ∈ Language.e8script.letters) → c ∉ Language.e8script.letters →
        asked = .error (.unknownKind c) ∧ (Stop.unknownKind c).exitCode = 1 ∧
          ∀ program, (Stop.unknownKind c).output program
            = "Unknown kind: " ++ c.toString ++ "\n" ++ Usage.short program) ∧
    ∀ s, asked = .ok s → ∀ (rules : Rules) (lines : List Bytes),
      tags { rules with kinds := s.rules.kinds } lines
        = (tags { rules with kinds := .all } lines).filter fun t => t.kind.letter ∈ text.toList := by
  have hasked : Settings.ofArguments [ofString ("--kinds=" ++ text)]
      = Settings.ofArguments [Argument.withValue .kinds (ofString text)] := by
    rw [ofString_append]
    rfl
  rw [hasked, Settings.ofArguments_kinds]
  have hfirst {before after : List Char} {c : Char} (htext : text.toList = before ++ c :: after)
      (hbefore : ∀ b ∈ before, b ∈ Language.e8script.letters)
      (hc : c ∉ Language.e8script.letters) :
      text.toList.find? (· ∉ Language.e8script.letters) = some c :=
    List.find?_eq_some_iff_append.mpr
      ⟨decide_eq_true hc, before, after, htext, fun b hb => by simpa using hbefore b hb⟩
  cases hfind : text.toList.find? (· ∉ Language.e8script.letters) with
  | none =>
    have hall : ∀ c ∈ text.toList, c ∈ Language.e8script.letters := fun c hc => by
      simpa using List.find?_eq_none.mp hfind c hc
    refine ⟨⟨fun _ => hall, fun _ => ⟨_, rfl⟩⟩, fun before c after htext hbefore hc => ?_,
      fun s hs rules lines => ?_⟩
    · exact absurd (hfind.symm.trans (hfirst htext hbefore hc)) (by simp)
    · obtain rfl := Except.ok.inj hs
      rw [tags_eq_filter]
      exact List.filter_congr fun t _ => KindSet.contains_lettered text t.kind
  | some letter =>
    refine ⟨⟨fun ⟨s, hs⟩ => absurd hs (by simp), fun hall => ?_⟩,
      fun before c after htext hbefore hc => ?_, fun s hs => absurd hs (by simp)⟩
    · have hletter := List.find?_some hfind
      exact absurd (hall letter (List.mem_of_find?_eq_some hfind)) (of_decide_eq_true hletter)
    · obtain rfl := Option.some.inj (hfind.symm.trans (hfirst htext hbefore hc))
      exact ⟨rfl, rfl, fun _ => rfl⟩

/-- Variables are asked for, twice, and functions are not: the variable keeps
the function around it as its scope. The letter behind them is no kind. -/
theorem kinds_only_filter_variables :
    let lines : List Bytes := ["function F()", "var x;"].map ofString
    (∃ s, Settings.ofArguments [ofString "--kinds=vv"] = .ok s ∧
      tags { kinds := s.rules.kinds } lines = [⟨"x", .var, 2, some "F"⟩]) ∧
    Settings.ofArguments [ofString "--kinds=vqz"] = .error (.unknownKind 'q') := by
  intro lines
  obtain ⟨haccepted, -, hfilter⟩ := kinds_only_filter "vv"
  obtain ⟨-, hrefused, -⟩ := kinds_only_filter "vqz"
  have hletter : ∀ c ∈ ['v'], c ∈ Language.e8script.letters :=
    List.forall_mem_singleton.mpr (by decide)
  have hletters : ∀ c ∈ ['v', 'v'], c ∈ Language.e8script.letters :=
    List.forall_mem_cons.mpr ⟨by decide, hletter⟩
  obtain ⟨s, hs⟩ := haccepted.mpr hletters
  refine ⟨⟨s, hs, (hfilter s hs {} lines).trans (by decide +kernel)⟩, ?_⟩
  exact (hrefused ['v'] 'q' ['z'] (by decide) hletter (by decide)).1

end DeclTags
