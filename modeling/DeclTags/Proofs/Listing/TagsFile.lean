import DeclTags.Proofs.Listing.Lines
import DeclTags.Proofs.Scan.Spelling
import DeclTags.Proofs.Source.Lines

/-!
# Tags files are read back

The lines of a tags file are fields between tabs, and nothing in them is
escaped. A tab or a line feed in a name, in a scope or in the path would
shift every field behind it, so the format can be read back only if there is
none. For the path that is up to the user. For names and scopes it is not:
the source may hold any bytes at all, and what keeps the marks of the format
out of a name is the alphabet of words, together with a decoding that makes
up no character of ASCII (`tags_spelled`).

The reader is the obvious one. It divides a line at its tabs, and takes the
fields as name, path, line number, kind and scope; only the last may be left
out. `TagsFile.entry?_fields` says that it undoes the writing of a tag, and
`tags_file_read_back` that with it the tags of a source are read off the file
that was written for it.
-/

namespace DeclTags

open Utf8

/-! ## The reader -/

namespace TagsFile

/-- The fields of a line, which are divided by tabs. -/
def fields? (line : Bytes) : Option (List (List Char)) :=
  (decode? line).map (·.toList.splitOn '\t')

/-- A number in decimal. -/
def decimal? (digits : List Char) : Option Nat :=
  if digits ≠ [] ∧ digits.all Char.isDigit then some (Nat.ofDigitChars 10 digits 0) else none

/-- The line number of a field, which has the mark behind it that hides the
fields after it from editors that know three fields only. -/
def lineNumber? (field : List Char) : Option Nat :=
  (field.dropSuffix? [';', '"']).bind decimal?

/-- The kind of a field, which is a letter. -/
def kind? (field : List Char) : Option Kind := Kind.all.find? (field == [·.letter])

/-- The scope of a field, which is a function. -/
def scope? (field : List Char) : Option String :=
  (field.dropPrefix? "function:".toList).map String.ofList

/-- **The path and the tag of some fields.** There are four of them, and a
fifth for a scope. -/
def entry? : List (List Char) → Option (String × Tag)
  | [name, path, line, kind] => do
    let tag := ⟨String.ofList name, ← kind? kind, ← lineNumber? line, none⟩
    return (String.ofList path, tag)
  | [name, path, line, kind, scope] => do
    let tag := ⟨String.ofList name, ← kind? kind, ← lineNumber? line, some (← scope? scope)⟩
    return (String.ofList path, tag)
  | _ => none

/-- **A line is read as a tag**, in a file of the given path: it has four
fields, or five if there is a scope, and the reader finds the path and the
tag in them. -/
def ReadsAs (path : String) (line : Bytes) (t : Tag) : Prop :=
  ∃ fields, fields? line = some fields ∧
    fields.length = (if t.scope?.isSome then 5 else 4) ∧ entry? fields = some (path, t)

/-! ## Reading what was written -/

/-- A number is read off its decimal digits. -/
theorem decimal?_toString (n : Nat) : decimal? (toString n).toList = some n := by
  have hne : (toString n).toList ≠ [] := by
    rw [toList_toString]
    exact Nat.toDigits_ne_nil
  have hall : (toString n).toList.all Char.isDigit = true :=
    List.all_eq_true.mpr isDigit_of_mem_toString
  rw [decimal?, if_pos ⟨hne, hall⟩, toList_toString, Nat.ofDigitChars_ten_toDigits]

/-- The field that a line number is written in. -/
def lineField (n : Nat) : List Char := (toString n).toList ++ [';', '"']

theorem lineNumber?_lineField (n : Nat) : lineNumber? (lineField n) = some n := by
  have hdrop : (lineField n).dropSuffix? [';', '"'] = some (toString n).toList :=
    List.dropSuffix?_eq_some_iff.mpr ⟨_, rfl, beq_self_eq_true _⟩
  rw [lineNumber?, hdrop]
  exact decimal?_toString n

theorem kind?_letter (k : Kind) : kind? [k.letter] = some k := by
  cases k <;> decide

theorem toList_scopeText (f : String) :
    (Tag.scopeText f).toList = "function:".toList ++ f.toList := by
  rw [Tag.scopeText, String.toList_append]
  rfl

theorem scope?_scopeText (f : String) : scope? (Tag.scopeText f).toList = some f := by
  have hdrop : (Tag.scopeText f).toList.dropPrefix? "function:".toList = some f.toList :=
    List.dropPrefix?_eq_some_iff.mpr ⟨_, toList_scopeText f, beq_self_eq_true _⟩
  rw [scope?, hdrop, Option.map_some, String.ofList_toList]

/-- **The fields that a tag is written in.** -/
def fields (path : String) (t : Tag) : List (List Char) :=
  [t.name.toList, path.toList, lineField t.line, [t.kind.letter]] ++
    (t.scope?.map fun f => (Tag.scopeText f).toList).toList

/-- The line of a tag has its fields between tabs. -/
theorem flatMap_bytes_ctagsLine (path : String) (t : Tag) :
    (Listing.ctagsLine path t).flatMap Piece.bytes
      = encode (['\t'].intercalate (fields path t) ++ ['\n']) := by
  obtain ⟨name, kind, line, scope?⟩ := t
  have hkind : kind.letter.toString.toList = [kind.letter] := String.toList_singleton _
  rw [Listing.ctagsLine, List.flatMap_cons, List.flatMap_nil, List.append_nil]
  refine congrArg encode ?_
  simp only [String.toList_append, hkind]
  cases scope? with
  | none =>
    simp [Listing.scopeField, fields, lineField]
  | some f =>
    simp [Listing.scopeField, fields, lineField]

/-- **The reader undoes the writing of a tag.** -/
theorem entry?_fields (path : String) (t : Tag) : entry? (fields path t) = some (path, t) := by
  obtain ⟨name, kind, line, scope?⟩ := t
  cases scope? with
  | none => simp [fields, entry?, kind?_letter, lineNumber?_lineField]
  | some f => simp [fields, entry?, kind?_letter, lineNumber?_lineField, scope?_scopeText]

theorem length_fields (path : String) (t : Tag) :
    (fields path t).length = if t.scope?.isSome then 5 else 4 := by
  rw [fields, List.length_append]
  cases t.scope? <;> rfl

/-- **A control character is in no field of a tag** whose texts are spelled
with bytes of words, if it is not in the path. -/
theorem not_mem_of_mem_fields {c : Char} {path : String} {t : Tag} (hc : c.toNat < 0x20)
    (hpath : c ∉ path.toList) (ht : t.Spelled) : ∀ field ∈ fields path t, c ∉ field := by
  have hword : ∀ n < 0x20, continuesWord (UInt8.ofNat n) = false := by decide
  have htext {text : String} (h : Spelled text) : c ∉ text.toList :=
    h.not_mem (by omega) (hword _ hc)
  intro field hfield
  rcases List.mem_append.mp hfield with hfield | hfield
  · simp only [List.mem_cons, List.not_mem_nil, or_false] at hfield
    rcases hfield with rfl | rfl | rfl | rfl
    · exact htext ht.name
    · exact hpath
    · have hend : Printed [';', '"'] := by decide
      exact (printed_append.mpr ⟨printed_toString t.line, hend⟩).not_mem hc
    · have hletter : Printed [t.kind.letter] := by cases t.kind <;> decide
      exact hletter.not_mem hc
  · rw [Option.mem_toList, Option.map_eq_some_iff] at hfield
    obtain ⟨f, hf, rfl⟩ := hfield
    have hkind : Printed "function:".toList := by decide
    rw [toList_scopeText, List.mem_append, not_or]
    exact ⟨hkind.not_mem hc, htext (ht.scope f hf)⟩

/-- **The line of a tag is read as the tag.** -/
theorem readsAs_line {path : String} {t : Tag} (hpath : '\t' ∉ path.toList) (ht : t.Spelled) :
    ReadsAs path (encode (['\t'].intercalate (fields path t))) t := by
  refine ⟨fields path t, ?_, length_fields path t, entry?_fields path t⟩
  have hne : fields path t ≠ [] := List.cons_ne_nil _ _
  rw [fields?, decode?_encode, Option.map_some, String.toList_ofList,
    List.splitOn_intercalate '\t' (not_mem_of_mem_fields (by decide) hpath ht) hne]

/-- **A tags file is read back** if its tags are spelled with bytes of words. -/
theorem exists_inLines_pieces {color : Bool} {path : String} {found : List Tag}
    (htab : '\t' ∉ path.toList) (hfeed : '\n' ∉ path.toList) (hfound : ∀ t ∈ found, t.Spelled) :
    ∃ lines, InLines ((Listing.pieces .ctags color path found).flatMap Piece.bytes) lines ∧
      List.Forall₂ (ReadsAs path) lines found := by
  refine Listing.exists_inLines (flatMap_bytes_ctagsLine path) (fun t ht hmem => ?_)
    (fun t ht => readsAs_line htab (hfound t ht))
  rcases mem_of_mem_intercalate hmem with h | ⟨field, hfield, h⟩
  · exact absurd h (by decide)
  · exact not_mem_of_mem_fields (by decide) hfeed (hfound t ht) field hfield h

end TagsFile

/-- **Tags files can be read back.** Whatever bytes a source consists of, the
tags file written for it has one line for each tag, and divided at tabs the
lines give the tags back – if the path has neither a tab nor a line feed. -/
theorem tags_file_read_back (rules : Rules) (color : Bool) (refusal path : String)
    (source : Source) (htab : '\t' ∉ path.toList) (hfeed : '\n' ∉ path.toList)
    (hread : source.failure? = none) :
    ∃ found lines, source.tags rules = .ok found ∧
      let sink : Sink := { room? := none, refusal }
      let report := Task.run ⟨rules, .ctags, color⟩ sink (ofString path) source
      report.result = .ok found.length ∧ InLines report.written lines ∧
        List.Forall₂ (TagsFile.ReadsAs path) lines found := by
  have htags : source.tags rules = .ok (tags rules source.lines) := by
    rw [Source.tags_eq, hread]
  obtain ⟨lines, hlines, hreads⟩ :=
    TagsFile.exists_inLines_pieces htab hfeed (tags_spelled rules source.lines)
  refine ⟨_, lines, htags, ?_⟩
  dsimp only
  rw [Task.run, htags]
  dsimp only [Task.pieces]
  rw [lossy_ofString, Sink.write_unlimited]
  exact ⟨rfl, hlines, hreads⟩

/-- A function, and a variable in it whose name ends in a stray byte. -/
theorem tags_file_read_back_stray_byte :
    let source : Source := [.data (ofString "Function F()\r\n\tVar a" ++ [0xFF, Ascii.semicolon])]
    let found : List Tag := [⟨"F", .function, 1, none⟩, ⟨"a\uFFFD", .var, 2, some "F"⟩]
    source.tags {} = .ok found ∧ ∃ lines,
      InLines (Task.run {} {} (ofString "a.os") source).written lines ∧
        List.Forall₂ (TagsFile.ReadsAs "a.os") lines found := by
  intro source found
  have hread : source.failure? = none := by decide
  have htags : source.tags {} = .ok found := by
    rw [Source.tags_eq, hread]
    exact congrArg Except.ok (by decide +kernel)
  obtain ⟨found', lines, hfound, -, hlines, hreads⟩ :=
    tags_file_read_back {} false "" "a.os" source (by decide) (by decide) hread
  rw [htags] at hfound
  obtain rfl := Except.ok.inj hfound
  exact ⟨htags, lines, hlines, hreads⟩

end DeclTags
