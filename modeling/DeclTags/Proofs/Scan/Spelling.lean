import DeclTags.Proofs.Scan.Run
import DeclTags.Proofs.Scan.Word
import DeclTags.Proofs.Utf8.Ascii

/-!
# What names are spelled with

A name is read off the source as a word, and a word has bytes of words only.
The bytes of a name need not be well-formed, though, and where they are not,
the name has characters that are nowhere in the source. Those are not
characters of ASCII. So for a character of ASCII the question whether it can
be in a name is settled by its byte (`Spelled.not_mem`), and no mark of the
language, no blank and no control character can.

A scope is the name of an earlier function. The scan keeps it in its state
from the header of the function on, so that it is spelled like a name is an
invariant of the state, kept by every move. What the tags say follows along
the run.
-/

namespace DeclTags

open Utf8

/-- **A text is spelled with bytes of words**: it is what some of them read
as. -/
def Spelled (text : String) : Prop :=
  ∃ bytes, (∀ b ∈ bytes, continuesWord b = true) ∧ lossy bytes = text

/-- A character of ASCII whose byte is not one of words is in no text that is
spelled with them. -/
theorem Spelled.not_mem {text : String} (h : Spelled text) {c : Char} (hc : c.toNat < 0x80)
    (hword : continuesWord (UInt8.ofNat c.toNat) = false) : c ∉ text.toList := by
  obtain ⟨bytes, hbytes, rfl⟩ := h
  intro hmem
  rw [hbytes _ (mem_of_mem_lossy hmem hc)] at hword
  exact Bool.noConfusion hword

/-- A word reads as a text that is spelled with bytes of words. -/
theorem spelled_word (p : Place) : Spelled (lossy p.word) :=
  ⟨p.word, (isWord_wordAt p.after).continuesWord_of_mem, rfl⟩

/-- **The texts of a tag are spelled with bytes of words.** -/
structure Tag.Spelled (t : Tag) : Prop where
  /-- Its name is. -/
  name : DeclTags.Spelled t.name
  /-- Its scope is. -/
  scope : ∀ f, t.scope? = some f → DeclTags.Spelled f

namespace State

variable {rules : Rules} {line : Nat} {s : State} {p : Place}

/-- The tag of a declaration is the declaration. -/
theorem eq_of_mem_tagsOf_declare {t u : Tag} (h : u ∈ tagsOf (declare rules t)) : u = t := by
  unfold declare at h
  split at h
  · exact absurd h List.not_mem_nil
  · exact List.mem_singleton.mp h

/-- **Every move keeps the enclosing function spelled with bytes of words**,
and so are the tags that it finds. -/
theorem Move.spelled {e : Step} (hm : Move rules line s p e)
    (h : ∀ f, s.enclosing? = some f → Spelled f) :
    (∀ f, e.state.enclosing? = some f → Spelled f) ∧ ∀ t ∈ tagsOf e.events, t.Spelled := by
  cases hm with
  | pass mode n => exact ⟨h, fun _ ht => absurd ht List.not_mem_nil⟩
  | semicolon | comma =>
    refine ⟨h, fun t ht => ?_⟩
    rw [tagsOf_goTo] at ht
    exact absurd ht List.not_mem_nil
  | @takeKeyword k n =>
    refine ⟨?_, fun t ht => ?_⟩
    · cases k with
      | var | sub => exact h
      | endSub => exact fun f hf => absurd hf (by simp [State.takeKeyword, goTo])
    · rw [tagsOf_takeKeyword] at ht
      exact absurd ht List.not_mem_nil
  | takeFunction =>
    have hname : Spelled (lossy p.skipBlanks.word) := spelled_word _
    refine ⟨fun f hf => ?_, fun t ht => ?_⟩
    · rw [← Option.some.inj hf]
      exact hname
    · rw [State.takeFunction, tagsOf_goTo] at ht
      rw [eq_of_mem_tagsOf_declare ht]
      exact ⟨hname, fun f hf => absurd hf (by simp)⟩
  | takeVariable =>
    refine ⟨h, fun t ht => ?_⟩
    rw [State.takeVariable, tagsOf_goTo] at ht
    rw [eq_of_mem_tagsOf_declare ht]
    exact ⟨spelled_word _, h⟩

end State

variable {rules : Rules} {lines : List Bytes}

/-- **Along a run**, the enclosing function and the tags found so far are
spelled with bytes of words. -/
theorem Run.spelled {n : Nat} {s : State} {p : Place} {es : List Event}
    (h : Run rules lines n s p es) :
    (∀ f, s.enclosing? = some f → Spelled f) ∧ ∀ t ∈ tagsOf es, t.Spelled := by
  induction h with
  | start => exact ⟨fun f hf => absurd hf (by simp), fun t ht => absurd ht List.not_mem_nil⟩
  | @step n s p es _ _ ih =>
    obtain ⟨henclosing, hfound⟩ := (State.move_step s rules n p).spelled ih.1
    refine ⟨henclosing, fun t ht => ?_⟩
    rw [tagsOf_append] at ht
    exact (List.mem_append.mp ht).elim (ih.2 t) (hfound t)
  | nextLine _ _ _ ih => exact ih

/-- **The tags of a source are spelled with bytes of words.** -/
theorem tags_spelled (rules : Rules) (lines : List Bytes) : ∀ t ∈ tags rules lines, t.Spelled := by
  obtain ⟨q, hrun⟩ := run_scan rules lines
  rw [tags_eq_tagsOf_scan]
  exact hrun.spelled.2

end DeclTags
