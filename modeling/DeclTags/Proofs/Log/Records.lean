import DeclTags.Log
import DeclTags.Proofs.Scan.Spelling
import DeclTags.Proofs.Scan.Strides
import Mathlib.Data.List.Basic

/-!
# Records of the log are read back

Who reads a log has texts and nothing else, so a statement about the log is a
statement about texts. This module says which texts tell what happened. A
tag is the only event whose record starts with the word `Tag`. The place of a
keyword is the only record of a step with a colon in it, and a change of phase
the only one with an arrow. What stands around these marks are labels and
numbers, so a reader finds keyword, line and column again, and both phases.

The marks are no marks if a name may hold them. It may not, because names
are spelled with bytes of words. Where that is used it is a hypothesis
(`Event.Legible`), which every event of a scan meets (`legible_events`).
-/

namespace DeclTags

open Utf8

/-- The digits of a number say which number it is. -/
theorem eq_of_toString_eq {m n : Nat} (h : toString m = toString n) : m = n := by
  rw [← Nat.ofDigitChars_ten_toDigits (n := m), ← toList_toString, h, toList_toString,
    Nat.ofDigitChars_ten_toDigits]

theorem not_mem_toString {c : Char} (h : c.isDigit = false) (n : Nat) :
    c ∉ (toString n).toList := by
  intro hc
  rw [isDigit_of_mem_toString c hc] at h
  exact Bool.noConfusion h

theorem Phase.label_inj {a b : Phase} (h : a.label = b.label) : a = b := by
  cases a <;> cases b <;> first | rfl | exact absurd h (by decide)

/-- All phases. -/
def Phase.all : List Phase := [outside, body, beforeVariable, behindVariable, beforeFunction]

theorem Phase.mem_all (a : Phase) : a ∈ all := by
  cases a <;> decide

/-- **The record of an event can be told from others**: there is no mark in
the name of a function whose body ends. -/
def Event.Legible : Event → Prop
  | bodyEnd f _ => Spelled f
  | _ => True

namespace Record

/-- **Is a record one of a tag?** -/
def isTag (r : Record) : Bool := "Tag: ".toList.isPrefixOf r.text.toList

/-- **The change of phase that a record is of**, if it is of one. -/
def change? (r : Record) : Option (Phase × Phase) :=
  (Phase.all.product Phase.all).find? fun c => r = ofEvent (.change c.1 c.2)

/-! ## Marks in records -/

variable {k : Keyword} {e : Event} {line column : Nat} {a b : Phase} {f : String} {c : Char}

theorem toList_keyword : (ofEvent (.keyword k line column)).text.toList
    = (k.label ++ " at " ++ toString line).toList ++ ':' :: (toString column).toList := by
  show (k.label ++ " at " ++ toString line ++ ":" ++ toString column).toList = _
  rw [String.toList_append, String.toList_append, List.append_assoc]
  rfl

theorem toList_change : (ofEvent (.change a b)).text.toList
    = (a.label ++ " -").toList ++ '>' :: (" " ++ b.label).toList := by
  show (a.label ++ " -> " ++ b.label).toList = _
  simp only [String.toList_append, List.append_assoc]
  rfl

theorem not_mem_place (h : c.isDigit = false) (hk : c ∉ (k.label ++ " at ").toList) :
    c ∉ (k.label ++ " at " ++ toString line).toList := by
  rw [String.toList_append, List.mem_append]
  exact not_or.mpr ⟨hk, not_mem_toString h line⟩

/-- An arrow is in no record of a keyword. -/
theorem arrow_not_mem_keyword : '>' ∉ (ofEvent (.keyword k line column)).text.toList := by
  have hk : '>' ∉ (k.label ++ " at ").toList := by cases k <;> decide
  rw [toList_keyword, List.mem_append, List.mem_cons]
  exact not_or.mpr ⟨not_mem_place rfl hk, not_or.mpr ⟨by decide, not_mem_toString rfl column⟩⟩

/-- A colon is in no record of a change. -/
theorem colon_not_mem_change : ':' ∉ (ofEvent (.change a b)).text.toList := by
  have hsource : ':' ∉ (a.label ++ " -").toList := by cases a <;> decide
  have htarget : ':' ∉ (" " ++ b.label).toList := by cases b <;> decide
  rw [toList_change, List.mem_append, List.mem_cons]
  exact not_or.mpr ⟨hsource, not_or.mpr ⟨by decide, htarget⟩⟩

/-- A mark is in no record of the end of a body. -/
theorem not_mem_bodyEnd (hf : Spelled f) (h : c = ':' ∨ c = '>') :
    c ∉ (ofEvent (.bodyEnd f line)).text.toList := by
  have hname : c ∉ f.toList := by
    rcases h with rfl | rfl
    · exact hf.not_mem (by decide) (by decide)
    · exact hf.not_mem (by decide) (by decide)
  have hdigits : c ∉ (toString line).toList := by
    rcases h with rfl | rfl <;> exact not_mem_toString rfl line
  show c ∉ ("End of " ++ f ++ " at line " ++ toString line).toList
  simp only [String.toList_append, List.mem_append, not_or]
  refine ⟨⟨⟨?_, hname⟩, ?_⟩, hdigits⟩
  all_goals rcases h with rfl | rfl <;> decide

/-! ## What a record tells -/

/-- The first letter of a keyword's label, and the number behind it, say where
the keyword stands. -/
theorem place_inj {j : Keyword} {line' : Nat}
    (h : (j.label ++ " at " ++ toString line').toList
      = (k.label ++ " at " ++ toString line).toList) :
    j = k ∧ line' = line := by
  have hhead (k : Keyword) (n : Nat) :
      (k.label ++ " at " ++ toString n).toList.head? = k.label.toList.head? := by
    rw [String.toList_append, String.toList_append]
    cases k <;> rfl
  have hjk : j = k := by
    have hlabels : j.label.toList.head? = k.label.toList.head? := by rw [← hhead, h, hhead]
    cases j <;> cases k <;> first | rfl | exact absurd hlabels (by decide)
  subst hjk
  exact ⟨rfl, eq_of_toString_eq ((String.append_right_inj _).mp (String.toList_inj.mp h))⟩

/-- **A record that reads like one of a keyword** is the record of that
keyword. -/
theorem eq_keyword (he : e.Legible) (h : ofEvent e = ofEvent (.keyword k line column)) :
    e = .keyword k line column := by
  have htext : (ofEvent e).text.toList = (ofEvent (.keyword k line column)).text.toList := by rw [h]
  have hcolon : ':' ∈ (ofEvent e).text.toList := by
    rw [htext, toList_keyword]
    exact List.mem_append_right _ List.mem_cons_self
  cases e with
  | keyword j line' column' =>
    have hlabel : ':' ∉ (k.label ++ " at ").toList := by cases k <;> decide
    rw [eq_comm, toList_keyword, toList_keyword, List.append_cons_inj_of_notMem
      (not_mem_place rfl hlabel) (not_mem_toString rfl column)] at htext
    obtain ⟨hplace, -, hcolumn⟩ := htext
    obtain ⟨rfl, rfl⟩ := place_inj hplace
    rw [eq_of_toString_eq (String.toList_inj.mp hcolumn)]
  | change a b => exact absurd hcolon colon_not_mem_change
  | bodyEnd f line => exact absurd hcolon (not_mem_bodyEnd he (.inl rfl))
  | tag t => exact Level.noConfusion (congrArg level h)
  | openBody f => exact Level.noConfusion (congrArg level h)

/-- **A record that reads like one of a change** is the record of that
change. -/
theorem eq_change (he : e.Legible) (h : ofEvent e = ofEvent (.change a b)) : e = .change a b := by
  have htext : (ofEvent e).text.toList = (ofEvent (.change a b)).text.toList := by rw [h]
  have harrow : '>' ∈ (ofEvent e).text.toList := by
    rw [htext, toList_change]
    exact List.mem_append_right _ List.mem_cons_self
  cases e with
  | change a' b' =>
    have hsource : '>' ∉ (a.label ++ " -").toList := by cases a <;> decide
    have htarget : '>' ∉ (" " ++ b.label).toList := by cases b <;> decide
    rw [eq_comm, toList_change, toList_change,
      List.append_cons_inj_of_notMem hsource htarget] at htext
    obtain ⟨ha, -, hb⟩ := htext
    rw [Phase.label_inj ((String.append_left_inj _).mp (String.toList_inj.mp ha)),
      Phase.label_inj ((String.append_right_inj _).mp (String.toList_inj.mp hb))]
  | keyword k line column => exact absurd harrow arrow_not_mem_keyword
  | bodyEnd f line => exact absurd harrow (not_mem_bodyEnd he (.inr rfl))
  | tag t => exact Level.noConfusion (congrArg level h)
  | openBody f => exact Level.noConfusion (congrArg level h)

/-- Changes are read off the records of events. -/
theorem change?_ofEvent (he : e.Legible) : (ofEvent e).change? = e.change? := by
  have hsome {c : Phase × Phase} (hc : (ofEvent e).change? = some c) : e = .change c.1 c.2 := by
    unfold change? at hc
    have hread := List.find?_some hc
    exact eq_change he (of_decide_eq_true hread)
  cases hfound : (ofEvent e).change? with
  | some c => rw [hsome hfound, Event.change?]
  | none =>
    cases e with
    | change a b =>
      -- the change itself is among those that are tried
      have hmem : (a, b) ∈ Phase.all.product Phase.all :=
        List.pair_mem_product.mpr ⟨a.mem_all, b.mem_all⟩
      exact absurd (List.find?_eq_none.mp hfound _ hmem) (by simp)
    | _ => rfl

/-- **Records of tags are told by their first word.** -/
theorem isTag_ofEvent (e : Event) : (ofEvent e).isTag = e.tag?.isSome := by
  cases e with
  | tag t =>
    show "Tag: ".toList.isPrefixOf ("Tag: " ++ tagText t).toList = true
    rw [String.toList_append]
    exact List.isPrefixOf_iff_prefix.mpr (List.prefix_append _ _)
  | keyword k line column =>
    rw [isTag, toList_keyword]
    simp only [String.toList_append]
    cases k <;> rfl
  | change a b =>
    rw [isTag, toList_change]
    simp only [String.toList_append]
    cases a <;> rfl
  | bodyEnd f line =>
    show "Tag: ".toList.isPrefixOf ("End of " ++ f ++ " at line " ++ toString line).toList = false
    simp only [String.toList_append]
    rfl
  | openBody f =>
    show "Tag: ".toList.isPrefixOf ("End of input inside body of " ++ f).toList = false
    rw [String.toList_append]
    rfl

/-- **A record that reads like that of an open body** is the record of it. -/
theorem eq_openBody (h : ofEvent e = ofEvent (.openBody f)) : e = .openBody f := by
  cases e with
  | openBody g =>
    have htext : "End of input inside body of " ++ g = "End of input inside body of " ++ f :=
      congrArg text h
    rw [(String.append_right_inj _).mp htext]
  | tag t =>
    have htag := congrArg isTag h
    rw [isTag_ofEvent, isTag_ofEvent] at htag
    exact Bool.noConfusion htag
  | _ => exact Level.noConfusion (congrArg level h)

end Record

end DeclTags
