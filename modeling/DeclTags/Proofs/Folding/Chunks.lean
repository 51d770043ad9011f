import DeclTags.Proofs.Alphabet.Folding
import DeclTags.Proofs.Utf8.Chunks

/-!
# Letter case, chunk by chunk

Letters are made small where they can be read, and what cannot be read is
passed on as it is. Whether that is done segment by segment or a chunk of text
at a time comes to the same (`foldCase_eq_flatMap_chunks`).

The result is cut into chunks again when it is read, and nothing says
beforehand that the cuts are the old ones: the first byte of a letter may
change, next to bytes that are no character, and an ill-formed part ends where
the byte behind it does not carry it on. They are the old ones all the same.
The chunks of the folded bytes are the chunks of the bytes with the letters of
their texts made small (`chunks_foldCase`), and since a letter has as many
bytes as its small form, each of them stands where it stood
(`Chunk.spans_map_small`).
-/

namespace DeclTags

open Utf8

theorem length_encode_map_smallForm (text : List Char) :
    (encode (text.map smallForm)).length = (encode text).length := by
  rw [← foldCase_encode, length_foldCase]

namespace Utf8.Chunk

/-- A chunk with the letters of its text made small. -/
def small (chunk : Chunk) : Chunk := ⟨chunk.text.map smallForm, chunk.illFormed⟩

theorem addSegment_small (s : Segment) (later : List Chunk) :
    addSegment s.small (later.map small) = (addSegment s later).map small := by
  unfold addSegment Segment.small foldSegment
  cases s.char? with
  | none => rfl
  | some c => cases later <;> rfl

/-- **Where chunks stand**, the first of them at an offset: the offset at which
the text of each starts, the one at which it ends and the ill-formed part
starts, and that part. -/
def spans : Nat → List Chunk → List (Nat × Nat × Bytes)
  | _, [] => []
  | start, chunk :: later =>
    let stop := start + (encode chunk.text).length
    (start, stop, chunk.illFormed) :: spans (stop + chunk.illFormed.length) later

/-- **Chunks stand where they stood** when their letters are made small. -/
theorem spans_map_small (start : Nat) (later : List Chunk) :
    spans start (later.map small) = spans start later := by
  induction later generalizing start with
  | nil => rfl
  | cons chunk later ih =>
    rw [List.map_cons, spans, spans]
    dsimp only [small]
    rw [length_encode_map_smallForm]
    exact congrArg (_ :: ·) (ih _)

end Utf8.Chunk

/-- **The chunks of a folded byte string are its folded chunks.** -/
theorem chunks_foldCase (bytes : Bytes) :
    chunks (foldCase bytes) = (chunks bytes).map Chunk.small := by
  rw [chunks, chunks, segments_foldCase, List.foldr_map,
    ← List.foldr_hom (List.map Chunk.small) Chunk.addSegment_small]
  rfl

/-- **Folding chunk by chunk is folding segment by segment.** -/
theorem foldCase_eq_flatMap_chunks (bytes : Bytes) :
    foldCase bytes = (chunks bytes).flatMap fun chunk => chunk.small.bytes := by
  rw [← flatMap_bytes_chunks (foldCase bytes), chunks_foldCase, List.flatMap_map]

/-- **Making letters small keeps every byte string in step.** The number of
bytes stays the same, and a second time changes nothing. Before bytes that no
character goes on into, the two parts can be taken one by one. It is the
letters of the texts of the chunks that are made small, and no others; the
chunks stay where they are, with the ill-formed parts that they have. And a
text is made small character by character. -/
theorem folding_stays_in_step (a b : Bytes) :
    (foldCase a).length = a.length ∧
    foldCase (foldCase a) = foldCase a ∧
    (opensAfresh b = true → foldCase (a ++ b) = foldCase a ++ foldCase b) ∧
    (foldCase a = (chunks a).flatMap fun chunk =>
      encode (chunk.text.map smallForm) ++ chunk.illFormed) ∧
    Chunk.spans 0 (chunks (foldCase a)) = Chunk.spans 0 (chunks a) ∧
    ∀ text : List Char, a = encode text → foldCase a = encode (text.map smallForm) := by
  refine ⟨length_foldCase a, foldCase_foldCase a, foldCase_append_of_opensAfresh a,
    foldCase_eq_flatMap_chunks a, ?_, fun text htext => ?_⟩
  · rw [chunks_foldCase, Chunk.spans_map_small]
  · rw [htext, foldCase_encode]

/-- A stray byte, a capital letter and half of another one, in front of a text
that starts with a capital letter: `Р` starts with the byte that the half
letter is, and its small form starts with another. -/
theorem folding_stays_in_step_half_letter :
    let a : Bytes := [0xFF, 0x41, 0xD0]
    let text := "Роза".toList
    opensAfresh (encode text) = true ∧
      foldCase (a ++ encode text) = [0xFF, 0x61, 0xD0] ++ encode "роза".toList ∧
      Chunk.spans 0 (chunks (foldCase (a ++ encode text))) =
        [(0, 0, [0xFF]), (1, 2, [0xD0]), (3, 11, [])] := by
  intro a text
  have hfresh : opensAfresh (encode text) = true := by decide +kernel
  obtain ⟨-, -, happend, -⟩ := folding_stays_in_step a (encode text)
  obtain ⟨-, -, -, -, -, htext⟩ := folding_stays_in_step (encode text) []
  obtain ⟨-, -, -, -, hspans, -⟩ := folding_stays_in_step (a ++ encode text) []
  refine ⟨hfresh, ?_, ?_⟩
  · rw [happend hfresh, htext text rfl]
    decide +kernel
  · rw [hspans]
    decide +kernel

end DeclTags
