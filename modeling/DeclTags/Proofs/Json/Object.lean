import DeclTags.Json.Composite
import DeclTags.Proofs.Json.Number
import Mathlib.Data.List.Forall2

/-!
# Reading objects as they were written

The readers of this library know the type of each value they come to. A
reader of listings does not, so here is one that takes an object as it comes
(`object`): its members are texts and natural numbers, told apart by the
quote that a text starts with, and they are kept in their order.

What stands behind a value is a comma or the brace at the end
(`EndsMember`). The text of a value has to be read in front of these and
nothing else (`Writes`), and an object is read as it was written if its values
are (`readAll_object`).
-/

namespace DeclTags

open Utf8

namespace Json

/-! ## The reader -/

/-- **What a member of an object may be.** -/
inductive Datum
  /-- A text. -/
  | text (text : String)
  /-- A natural number. -/
  | number (n : Nat)
deriving DecidableEq

/-- A text or a natural number. -/
def datum : Reader Datum := fun text =>
  if (skipSpace text).head? = some Ascii.quote then string.map .text text
  else natural.map .number text

/-- What a member does to the members before it. -/
def collect (found : List (String × Datum)) (name : String) :
    Except Flaw (Reader (List (String × Datum))) :=
  .ok (datum.map fun d => found ++ [(name, d)])

/-- **The members of an object**, in their order. -/
def object : Reader (List (String × Datum)) := behind Ascii.openBrace (members collect true [])

/-! ## Values -/

/-- **A member ends in front of a text.** -/
def EndsMember (rest : Bytes) : Prop :=
  rest.head? = some Ascii.comma ∨ rest.head? = some Ascii.closeBrace

/-- **A text is that of a datum.** -/
structure Writes (json : String) (d : Datum) : Prop where
  /-- It is read as the datum, wherever a member may end. -/
  reads : ∀ rest, EndsMember rest → Reads datum (ofString json ++ rest) d rest
  /-- There are no control characters in it. -/
  printed : Printed json.toList

theorem writes_quoted (text : String) : Writes (quoted text) (.text text) := by
  refine ⟨fun rest _ => ?_, printed_quoted text⟩
  obtain ⟨hlt, hr⟩ := (reads_string_quoted text rest).map Datum.text
  refine ⟨hlt, ?_⟩
  have hquote : (skipSpace (ofString (quoted text) ++ rest)).head? = some Ascii.quote := by
    rw [ofString_quoted, List.cons_append, skipSpace_cons (by decide)]
    rfl
  rw [datum, if_pos hquote, hr]

theorem writes_toString (n : Nat) : Writes (toString n) (.number n) := by
  refine ⟨fun rest hrest => ?_, printed_toString n⟩
  have hends : EndsNumber rest := by
    intro b hb
    rcases hrest with h | h
    · obtain rfl := Option.some.inj (hb.symm.trans h)
      decide
    · obtain rfl := Option.some.inj (hb.symm.trans h)
      decide
  obtain ⟨hlt, hr⟩ := (reads_natural_toString n hends).map Datum.number
  refine ⟨hlt, ?_⟩
  obtain ⟨b, more, hbytes, -, hdigits⟩ := ofString_toString n
  have hdigit := hdigits b List.mem_cons_self
  have hquote : (skipSpace (ofString (toString n) ++ rest)).head? ≠ some Ascii.quote := by
    rw [hbytes, List.cons_append, skipSpace_cons (isSpace_of_isDigit hdigit)]
    intro h
    rw [Option.some.inj h] at hdigit
    exact absurd hdigit (by decide)
  rw [datum, if_neg hquote, hr]

/-! ## Members -/

section Members

variable {σ : Type} {field : σ → String → Except Flaw (Reader σ)} {isFirst : Bool} {s s' s'' : σ}
  {text mid after rest : Bytes}

theorem reads_members_close :
    Reads (members field isFirst s) (Ascii.closeBrace :: rest) s rest := by
  have hspace : isSpace Ascii.closeBrace = false := by decide
  have hclose : member isFirst (Ascii.closeBrace :: rest)
      = .ok (.close rest (Nat.lt_succ_self _)) := by
    unfold member
    split
    · rename_i hnil
      exact absurd hnil (skipSpace_cons_ne_nil hspace rest)
    · rename_i hcons
      obtain ⟨rfl, rfl⟩ := eq_of_skipSpace_cons hspace hcons
      rw [if_pos rfl]
  refine ⟨Nat.lt_succ_self _, ?_⟩
  rw [members, hclose]

/-- **The name of a member starts** behind what opens it. -/
def Opens (isFirst : Bool) (text tail : Bytes) : Prop :=
  ∃ h, member isFirst text = .ok (.name tail h)

theorem opens_first (tail : Bytes) : Opens true (Ascii.quote :: tail) tail := by
  have hspace : isSpace Ascii.quote = false := by decide
  refine ⟨Nat.lt_succ_self _, ?_⟩
  unfold member
  split
  · rename_i hnil
    exact absurd hnil (skipSpace_cons_ne_nil hspace tail)
  · rename_i hcons
    obtain ⟨rfl, rfl⟩ := eq_of_skipSpace_cons hspace hcons
    rw [if_neg (by decide), if_pos rfl, if_pos rfl]

theorem opens_later (tail : Bytes) : Opens false (Ascii.comma :: Ascii.quote :: tail) tail := by
  have hspace : isSpace Ascii.comma = false := by decide
  have hspace' : isSpace Ascii.quote = false := by decide
  refine ⟨Nat.lt_succ_of_lt (Nat.lt_succ_self _), ?_⟩
  unfold member
  split
  · rename_i hnil
    exact absurd hnil (skipSpace_cons_ne_nil hspace _)
  · rename_i hcons
    obtain ⟨rfl, rfl⟩ := eq_of_skipSpace_cons hspace hcons
    rw [if_neg (by decide), if_neg Bool.false_ne_true, if_pos rfl]
    split
    · rename_i hnil
      exact absurd hnil (skipSpace_cons_ne_nil hspace' tail)
    · rename_i hcons'
      obtain ⟨rfl, rfl⟩ := eq_of_skipSpace_cons hspace' hcons'
      rw [if_pos rfl]

theorem reads_colon : Reads colon (Ascii.colon :: rest) () rest := by
  have hspace : isSpace Ascii.colon = false := by decide
  refine ⟨Nat.lt_succ_self _, ?_⟩
  unfold colon
  split
  · rename_i hnil
    exact absurd hnil (skipSpace_cons_ne_nil hspace rest)
  · rename_i hcons
    obtain ⟨rfl, rfl⟩ := eq_of_skipSpace_cons hspace hcons
    rw [if_pos rfl]

/-- **A member in front of later ones.** -/
theorem reads_members_cons {tail name : Bytes} {r : Reader σ} (hopen : Opens isFirst text tail)
    (hname : Reads (stringTail false) tail name mid) (hfield : field s (lossy name) = .ok r)
    (hvalue : Reads (colon.andThen fun _ => r) mid s' after)
    (hlater : Reads (members field false s') after s'' rest) :
    Reads (members field isFirst s) text s'' rest := by
  obtain ⟨hto, ho⟩ := hopen
  obtain ⟨htn, hn⟩ := hname
  obtain ⟨htv, hv⟩ := hvalue
  obtain ⟨htl, hl⟩ := hlater
  refine ⟨by omega, ?_⟩
  rw [members, ho]
  dsimp only
  rw [hn]
  dsimp only
  rw [hfield]
  dsimp only
  rw [hv]
  dsimp only
  rw [hl]

end Members

/-! ## Objects -/

/-- A member as it is written. -/
def memberText (field : String × String) : String := quoted field.1 ++ ":" ++ field.2

/-- An object as it is written, without blanks. -/
def objectText (fields : List (String × String)) : String :=
  "\x7b" ++ ",".intercalate (fields.map memberText) ++ "\x7d"

/-- **The text of a member**, which is written for a datum with its name. -/
def WritesMember (field : String × String) (m : String × Datum) : Prop :=
  field.1 = m.1 ∧ Writes field.2 m.2

/-- The bytes behind the opening quote of a member, in front of others. -/
def memberTail (field : String × String) (after : Bytes) : Bytes :=
  encode (field.1.toList.flatMap escape) ++
    Ascii.quote :: Ascii.colon :: (ofString field.2 ++ after)

theorem ofString_memberText_append (field : String × String) (after : Bytes) :
    ofString (memberText field) ++ after = Ascii.quote :: memberTail field after := by
  have hcolon : ofString ":" = [Ascii.colon] := by decide
  rw [memberText, ofString_append, ofString_append, ofString_quoted, hcolon, memberTail]
  simp only [List.cons_append, List.append_assoc, List.nil_append]

/-- The bytes of the members behind another one, with the end of the object. -/
def laterMembers (fields : List (String × String)) (rest : Bytes) : Bytes :=
  fields.foldr (fun field after => Ascii.comma :: (ofString (memberText field) ++ after))
    (Ascii.closeBrace :: rest)

theorem laterMembers_cons (field : String × String) (fields : List (String × String))
    (rest : Bytes) : laterMembers (field :: fields) rest
      = Ascii.comma :: (ofString (memberText field) ++ laterMembers fields rest) := rfl

/-- The members of an object have commas between them. -/
theorem ofString_intercalate_append (field : String × String) (fields : List (String × String))
    (rest : Bytes) :
    ofString (",".intercalate ((field :: fields).map memberText)) ++ Ascii.closeBrace :: rest
      = ofString (memberText field) ++ laterMembers fields rest := by
  have hcomma : ofString "," = [Ascii.comma] := by decide
  induction fields generalizing field with
  | nil =>
    rw [List.map_cons, List.map_nil, String.intercalate_singleton, laterMembers, List.foldr_nil]
  | cons field' fields ih =>
    have hlater := ih field'
    rw [List.map_cons] at hlater
    rw [List.map_cons, List.map_cons, String.intercalate_cons_cons, ofString_append,
      ofString_append, hcomma, List.append_assoc, List.append_assoc, hlater, laterMembers_cons,
      List.singleton_append]

/-- A member ends where others come behind it, or the end of the object does. -/
theorem endsMember_laterMembers (fields : List (String × String)) (rest : Bytes) :
    EndsMember (laterMembers fields rest) := by
  cases fields with
  | nil => exact .inr rfl
  | cons field fields => exact .inl rfl

/-- **A member is read as it was written**, and then those behind it are. -/
theorem reads_members_collect {isFirst : Bool} {field : String × String} {m : String × Datum}
    {found all : List (String × Datum)} {text after rest : Bytes} (hm : WritesMember field m)
    (hopen : Opens isFirst text (memberTail field after)) (hends : EndsMember after)
    (hlater : Reads (members collect false (found ++ [m])) after all rest) :
    Reads (members collect isFirst found) text all rest := by
  obtain ⟨hname, hvalue⟩ := hm
  have hdatum : Reads (colon.andThen fun _ => datum.map fun d => found ++ [(field.1, d)])
      (Ascii.colon :: (ofString field.2 ++ after)) (found ++ [m]) after := by
    rw [hname]
    exact reads_colon.andThen ((hvalue.reads after hends).map _)
  refine reads_members_cons hopen (reads_stringTail _ _) ?_ hdatum hlater
  rw [collect, lossy_encode, String.ofList_toList]

/-- The members behind another one are read as they were written, too. -/
theorem reads_laterMembers {fields : List (String × String)} {ms : List (String × Datum)}
    (h : List.Forall₂ WritesMember fields ms) (found : List (String × Datum)) (rest : Bytes) :
    Reads (members collect false found) (laterMembers fields rest) (found ++ ms) rest := by
  -- each member is found before the next one, so what has been found varies
  induction h generalizing found with
  | nil =>
    rw [List.append_nil]
    exact reads_members_close
  | @cons field m fields ms hm _ ih =>
    have hlater := ih (found ++ [m])
    rw [List.append_assoc] at hlater
    have htext : laterMembers (field :: fields) rest
        = Ascii.comma :: Ascii.quote :: memberTail field (laterMembers fields rest) := by
      rw [laterMembers_cons, ofString_memberText_append]
    rw [htext]
    exact reads_members_collect hm (opens_later _) (endsMember_laterMembers fields rest) hlater

/-- **An object is read as it was written.** -/
theorem readAll_object {fields : List (String × String)} {ms : List (String × Datum)}
    (h : List.Forall₂ WritesMember fields ms) :
    readAll object (ofString (objectText fields)) = .ok ms := by
  have hopen : ofString "\x7b" = [Ascii.openBrace] := by decide
  have hclose : ofString "\x7d" = [Ascii.closeBrace] := by decide
  rw [objectText, ofString_append, ofString_append, hopen, hclose, List.singleton_append,
    List.cons_append]
  refine Reads.readAll (Reads.behind (c := Ascii.openBrace) (by decide) ?_)
  cases h with
  | nil => exact reads_members_close
  | @cons field m fields ms hm hlater =>
    rw [ofString_intercalate_append, ofString_memberText_append]
    exact reads_members_collect hm (opens_first _) (endsMember_laterMembers fields [])
      (reads_laterMembers hlater [m] [])

/-- **There are no control characters in an object.** -/
theorem printed_objectText {fields : List (String × String)} {ms : List (String × Datum)}
    (h : List.Forall₂ WritesMember fields ms) : Printed (objectText fields).toList := by
  have hmembers : ∀ text ∈ (fields.map memberText).map String.toList, Printed text := by
    induction h with
    | nil => exact fun _ h => absurd h List.not_mem_nil
    | @cons field m fields ms hm _ ih =>
      refine List.forall_mem_cons.mpr ⟨?_, ih⟩
      rw [memberText, String.toList_append, String.toList_append]
      exact printed_append.mpr
        ⟨printed_append.mpr ⟨printed_quoted field.1, by decide⟩, hm.2.printed⟩
  rw [objectText, String.toList_append, String.toList_append, String.toList_intercalate]
  exact printed_append.mpr
    ⟨printed_append.mpr ⟨by decide, printed_intercalate (by decide) hmembers⟩, by decide⟩

end Json

end DeclTags
