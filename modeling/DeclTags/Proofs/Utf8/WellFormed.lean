import DeclTags.Proofs.Utf8.LastCharacter
import Mathlib.Data.List.Basic

/-!
# Well-formed byte strings

A byte string is well-formed when each of its segments is a character. Then
decoding it with substitution substitutes nothing, and its reading has the
bytes it was read from (`WellFormed.ofString_lossy`). A piece of a
well-formed byte string need not be well-formed, because a cut may go through
a character; one that starts afresh, with a fresh start behind it, is
(`WellFormed.of_append`). Conversely, a reading without a substitute says that
the bytes were well-formed, and which bytes they were
(`eq_ofString_of_lossy`).
-/

namespace DeclTags

namespace Utf8

/-- **Well-formed throughout**: every segment is a character. -/
def WellFormed (bytes : Bytes) : Prop := ∀ s ∈ segments bytes, s.char?.isSome = true

/-- The byte strings that can be decoded are the well-formed ones. -/
theorem isSome_decode?_iff {bytes : Bytes} :
    (decode? bytes).isSome = true ↔ WellFormed bytes := by
  rw [decode?, Option.isSome_map, WellFormed]
  generalize segments bytes = ss
  induction ss with
  | nil => simp
  | cons s ss ih =>
    rw [List.forall_mem_cons, ← ih, List.mapM_cons]
    cases hs : s.char? with
    | none => simp
    | some c => cases hss : ss.mapM Segment.char? <;> simp

/-- A text that some bytes can be decoded to starts with their first segment. -/
theorem exists_first_of_decode? {b : UInt8} {rest : Bytes} {text : String}
    (h : decode? (b :: rest) = some text) :
    ∃ c, (first b rest).char? = some c ∧ text.toList.head? = some c := by
  obtain ⟨cs, hcs, rfl⟩ := Option.map_eq_some_iff.mp h
  obtain ⟨-, more, -, -, hs⟩ := segments_cons b rest
  rw [hs, List.mapM_cons] at hcs
  obtain ⟨c, hc, hcs⟩ := Option.bind_eq_some_iff.mp hcs
  obtain ⟨later, -, hcs⟩ := Option.bind_eq_some_iff.mp hcs
  obtain rfl := Option.some.inj hcs
  exact ⟨c, hc, by rw [String.toList_ofList]; rfl⟩

namespace WellFormed

/-- **The reading of a well-formed byte string has its bytes.** -/
theorem ofString_lossy {bytes : Bytes} (h : WellFormed bytes) :
    ofString (lossy bytes) = bytes := by
  rw [lossy, ofString, String.toList_ofList, encode, List.flatMap_map]
  refine Eq.trans ?_ (flatMap_segments bytes)
  refine List.flatMap_congr (fun s hs => ?_)
  obtain ⟨c, hc⟩ := Option.isSome_iff_exists.mp (h s hs)
  rw [bytes_of_mem_segments hs hc, Segment.reading, hc]
  rfl

/-- A piece between two fresh starts is well-formed. -/
theorem of_append {x y z : Bytes} (h : WellFormed (x ++ (y ++ z)))
    (hy : opensAfresh (y ++ z) = true) (hz : opensAfresh z = true) : WellFormed y := by
  intro s hs
  refine h s ?_
  rw [segments_append_of_opensAfresh x hy, segments_append_of_opensAfresh y hz]
  exact List.mem_append_right _ (List.mem_append_left _ hs)

end WellFormed

/-- Bytes that read as a text without a substitute are the bytes of the
text. -/
theorem eq_ofString_of_lossy {bytes : Bytes} {text : String} (h : lossy bytes = text)
    (hsubstitute : '\uFFFD' ∉ text.toList) : bytes = ofString text := by
  have hwell : WellFormed bytes := by
    intro s hs
    cases hc : s.char? with
    | some c => rfl
    | none =>
      refine absurd ?_ hsubstitute
      rw [← h, lossy, String.toList_ofList]
      exact List.mem_map.mpr ⟨s, hs, by rw [Segment.reading, hc]; rfl⟩
  rw [← h, hwell.ofString_lossy]

end Utf8

end DeclTags
