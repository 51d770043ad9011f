import DeclTags.Proofs.Utf8.Encoding

/-!
# The last character of a byte string

UTF-8 is decoded from left to right, so the character that ends a byte string
is known only once everything before it has been decoded. Its last four bytes
show it all the same (`lastChar?_append_window`). A window of four bytes cuts
the byte string before some byte that starts a character, and then the
segments behind that byte are what they are; or else it holds continuation
bytes only, and then no character ends there either way, since none is longer
than four bytes.
-/

namespace DeclTags

namespace Utf8

/-- The last of some segments ends the bytes. -/
theorem exists_eq_append_of_getLast? {bytes : Bytes} {s : Segment}
    (h : (segments bytes).getLast? = some s) : ∃ start, bytes = start ++ s.bytes := by
  obtain ⟨init, hs⟩ := List.getLast?_eq_some_iff.mp h
  refine ⟨init.flatMap Segment.bytes, ?_⟩
  rw [← flatMap_segments bytes, hs, List.flatMap_append, List.flatMap_singleton]

/-- A segment of a byte string that is a character has the bytes of its
encoding. -/
theorem bytes_of_mem_segments {bytes : Bytes} {s : Segment} {c : Char}
    (h : s ∈ segments bytes) (hc : s.char? = some c) : s.bytes = String.utf8EncodeChar c := by
  induction bytes using segments_induction with
  | nil =>
    rw [segments_nil] at h
    exact absurd h List.not_mem_nil
  | cons b tail more hs ih =>
    rw [segments_cons_of_first hs] at h
    rcases List.mem_cons.mp h with rfl | h
    · exact bytes_of_char hc
    · exact ih h

theorem length_encodeChar_le (c : Char) : (String.utf8EncodeChar c).length ≤ 4 := by
  unfold String.utf8EncodeChar
  dsimp only
  repeat' split
  all_goals exact Nat.le_of_ble_eq_true rfl

/-- The last character of a byte string, if the string ends in one. -/
def lastChar? (bytes : Bytes) : Option Char := (segments bytes).getLast?.bind Segment.char?

theorem lastChar?_eq_some {bytes : Bytes} {c : Char} (h : lastChar? bytes = some c) :
    ∃ start, bytes = start ++ String.utf8EncodeChar c := by
  obtain ⟨s, hs, hc⟩ := Option.bind_eq_some_iff.mp h
  obtain ⟨start, he⟩ := exists_eq_append_of_getLast? hs
  refine ⟨start, ?_⟩
  rw [he, bytes_of_mem_segments (List.mem_of_getLast? hs) hc]

theorem lastChar?_append {x y : Bytes} (hy : y ≠ [])
    (hs : segments (x ++ y) = segments x ++ segments y) : lastChar? (x ++ y) = lastChar? y := by
  obtain ⟨s, hl⟩ := Option.ne_none_iff_exists'.mp
    (mt List.getLast?_eq_none_iff.mp (segments_ne_nil hy))
  rw [lastChar?, lastChar?, hs, List.getLast?_append, hl]
  rfl

/-- A character at the end of a byte string is its last, whatever stands before
it. -/
theorem lastChar?_append_encodeChar (start : Bytes) (c : Char) :
    lastChar? (start ++ String.utf8EncodeChar c) = some c := by
  have hfresh := opensAfresh_encodeChar c []
  have hs := segments_encodeChar_append c []
  rw [List.append_nil] at hfresh hs
  rw [lastChar?_append (encodeChar_ne_nil c) (segments_append_of_opensAfresh start hfresh),
    lastChar?, hs, segments_nil]
  rfl

/-- Continuation bytes before a place hide the character before them. -/
theorem lastChar?_of_isContinuation (start : Bytes) {window : Bytes} (hw : 4 ≤ window.length)
    (h : ∀ b ∈ window, isContinuation b = true) : lastChar? (start ++ window) = none := by
  rw [Option.eq_none_iff_forall_ne_some]
  intro c hc
  obtain ⟨start', he⟩ := lastChar?_eq_some hc
  obtain ⟨b, tail, hb, hcont, -⟩ := encodeChar_cons c
  have hsuf : String.utf8EncodeChar c <:+ window :=
    List.suffix_of_suffix_length_le ⟨start', he.symm⟩ ⟨start, rfl⟩
      (Nat.le_trans (length_encodeChar_le c) hw)
  have hmem : b ∈ window := hsuf.subset (by rw [hb]; exact List.mem_cons_self)
  rw [h b hmem] at hcont
  exact Bool.noConfusion hcont

/-- A byte that is no continuation byte, as near to the end as possible. -/
theorem exists_opensAfresh_of_not_all {bytes : Bytes}
    (h : ¬ ∀ b ∈ bytes, isContinuation b = true) :
    ∃ x y, bytes = x ++ y ∧ y ≠ [] ∧ opensAfresh y = true := by
  induction bytes with
  | nil => exact absurd (fun b hb => absurd hb List.not_mem_nil) h
  | cons b rest ih =>
    cases hb : isContinuation b with
    | false =>
      refine ⟨[], b :: rest, rfl, List.cons_ne_nil b rest, ?_⟩
      rw [opensAfresh_cons, hb]
      rfl
    | true =>
      obtain ⟨x, y, rfl, hne, hy⟩ := ih (fun hall => h (fun c hc => by
        rcases List.mem_cons.mp hc with rfl | hc
        · exact hb
        · exact hall c hc))
      exact ⟨b :: x, y, rfl, hne, hy⟩

/-- **A window of four bytes shows the last character.** -/
theorem lastChar?_append_window (start : Bytes) {window : Bytes} (hw : 4 ≤ window.length) :
    lastChar? (start ++ window) = lastChar? window := by
  by_cases h : ∀ b ∈ window, isContinuation b = true
  · rw [lastChar?_of_isContinuation start hw h]
    exact (lastChar?_of_isContinuation [] hw h).symm
  · obtain ⟨x, y, rfl, hne, hy⟩ := exists_opensAfresh_of_not_all h
    rw [← List.append_assoc, lastChar?_append hne (segments_append_of_opensAfresh _ hy),
      lastChar?_append hne (segments_append_of_opensAfresh _ hy)]

end Utf8

end DeclTags
