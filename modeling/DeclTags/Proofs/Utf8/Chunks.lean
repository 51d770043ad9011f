import DeclTags.Proofs.Utf8.LastCharacter

/-!
# Chunks of a byte string

A reader that wants text, and not one character after another, takes as much
text at once as it can get. It cuts a byte string into chunks: some
characters, and the ill-formed part that puts an end to them. Segments say the
same in smaller steps, and a chunk is made of them, so nothing is lost
(`flatMap_bytes_chunks`).

Whether a byte string ends in a character can be seen from its last chunk
alone. Only the last chunk may be without an ill-formed part, and if it is,
the last of its characters is the last one of the bytes (`last?_chunks`).
-/

namespace DeclTags

namespace Utf8

/-- **A chunk of a byte string**: some characters, and the ill-formed part
right behind them. There is none behind the characters that end the bytes. -/
structure Chunk where
  /-- The characters. -/
  text : List Char
  /-- The ill-formed part. -/
  illFormed : Bytes
deriving DecidableEq

namespace Chunk

/-- **A chunk is not empty**: without characters it has an ill-formed part. -/
def Filled (chunk : Chunk) : Prop := chunk.text = [] → chunk.illFormed ≠ []

/-- The character that a chunk ends in, if it does not end in an ill-formed
part. -/
def last? (chunk : Chunk) : Option Char :=
  if chunk.illFormed = [] then chunk.text.getLast? else none

/-- The bytes of a chunk. -/
def bytes (chunk : Chunk) : Bytes := encode chunk.text ++ chunk.illFormed

/-- One character more in front of some chunks. It belongs to the first of
them. -/
def addChar (c : Char) : List Chunk → List Chunk
  | [] => [⟨[c], []⟩]
  | chunk :: more => ⟨c :: chunk.text, chunk.illFormed⟩ :: more

/-- One segment more in front of some chunks. -/
def addSegment (s : Segment) (later : List Chunk) : List Chunk :=
  match s.char? with
  | some c => addChar c later
  | none => ⟨[], s.bytes⟩ :: later

theorem flatMap_bytes_addChar (c : Char) (later : List Chunk) :
    (addChar c later).flatMap bytes = String.utf8EncodeChar c ++ later.flatMap bytes := by
  cases later with
  | nil =>
    show encode [c] ++ [] ++ [] = _
    rw [List.append_nil, List.append_nil, encode, List.flatMap_singleton, List.flatMap_nil,
      List.append_nil]
  | cons chunk later =>
    rw [addChar, List.flatMap_cons, List.flatMap_cons, bytes, bytes, encode, List.flatMap_cons,
      List.append_assoc, List.append_assoc, List.append_assoc]
    rfl

/-- A character in front of a chunk does not change what it ends in. -/
theorem last?_cons (c : Char) {chunk : Chunk} (h : chunk.Filled) :
    last? ⟨c :: chunk.text, chunk.illFormed⟩ = chunk.last? := by
  unfold last?
  split
  · rename_i hnone
    exact List.getLast?_cons_of_ne_nil fun htext => h htext hnone
  · rfl

/-- A character in front of chunks does not change what they end in. -/
theorem last?_addChar (c : Char) {later : List Chunk} (hne : later ≠ [])
    (h : ∀ chunk ∈ later, chunk.Filled) :
    (addChar c later).getLast?.bind last? = later.getLast?.bind last? := by
  obtain ⟨chunk, more, rfl⟩ := List.exists_cons_of_ne_nil hne
  rw [addChar, List.getLast?_cons, List.getLast?_cons]
  cases more.getLast? with
  | none => exact last?_cons c (h chunk List.mem_cons_self)
  | some last => rfl

end Chunk

/-- **The chunks of a byte string**, from left to right. -/
def chunks (bytes : Bytes) : List Chunk := (segments bytes).foldr Chunk.addSegment []

@[simp] theorem chunks_nil : chunks [] = [] := by
  rw [chunks, segments_nil]
  rfl

/-- An encoded character belongs to the chunk behind it. -/
theorem chunks_encodeChar_append (c : Char) (more : Bytes) :
    chunks (String.utf8EncodeChar c ++ more) = Chunk.addChar c (chunks more) := by
  rw [chunks, segments_encodeChar_append]
  rfl

/-- An ill-formed part ends a chunk. -/
theorem chunks_of_illFormed {b : UInt8} {tail more : Bytes}
    (h : first b (tail ++ more) = ⟨b :: tail, none⟩) :
    chunks (b :: (tail ++ more)) = ⟨[], b :: tail⟩ :: chunks more := by
  rw [chunks, segments_cons_of_first (by rw [h]), h]
  rfl

/-- **The chunks of a byte string concatenate to it.** -/
theorem flatMap_bytes_chunks (bytes : Bytes) : (chunks bytes).flatMap Chunk.bytes = bytes := by
  induction bytes using char_induction with
  | nil => rw [chunks_nil, List.flatMap_nil]
  | char c more ih => rw [chunks_encodeChar_append, Chunk.flatMap_bytes_addChar, ih]
  | illFormed b tail more h ih =>
    rw [chunks_of_illFormed h, List.flatMap_cons, ih]
    rfl

theorem chunks_ne_nil {bytes : Bytes} (h : bytes ≠ []) : chunks bytes ≠ [] := by
  cases bytes using char_induction with
  | nil => exact absurd rfl h
  | char c more =>
    rw [chunks_encodeChar_append]
    cases chunks more <;> exact List.cons_ne_nil _ _
  | illFormed b tail more hb =>
    rw [chunks_of_illFormed hb]
    exact List.cons_ne_nil _ _

/-- No chunk is empty. -/
theorem filled_of_mem_chunks (bytes : Bytes) : ∀ chunk ∈ chunks bytes, chunk.Filled := by
  induction bytes using char_induction with
  | nil =>
    rw [chunks_nil]
    exact fun _ h => absurd h List.not_mem_nil
  | char c more ih =>
    rw [chunks_encodeChar_append]
    cases hlater : chunks more with
    | nil => exact List.forall_mem_singleton.mpr fun h => absurd h (List.cons_ne_nil _ _)
    | cons chunk later =>
      rw [hlater] at ih
      exact List.forall_mem_cons.mpr
        ⟨fun h => absurd h (List.cons_ne_nil _ _), (List.forall_mem_cons.mp ih).2⟩
  | illFormed b tail more hb ih =>
    rw [chunks_of_illFormed hb]
    exact List.forall_mem_cons.mpr ⟨fun _ => List.cons_ne_nil b tail, ih⟩

/-- **The last chunk shows the last character.** -/
theorem last?_chunks (bytes : Bytes) :
    (chunks bytes).getLast?.bind Chunk.last? = lastChar? bytes := by
  induction bytes using char_induction with
  | nil =>
    rw [chunks_nil, lastChar?, segments_nil]
    rfl
  | char c more ih =>
    rw [chunks_encodeChar_append, lastChar?, segments_encodeChar_append]
    by_cases hmore : more = []
    · rw [hmore, chunks_nil, segments_nil]
      rfl
    · rw [Chunk.last?_addChar c (chunks_ne_nil hmore) (filled_of_mem_chunks more), ih,
        List.getLast?_cons_of_ne_nil (segments_ne_nil hmore)]
      rfl
  | illFormed b tail more hb ih =>
    rw [chunks_of_illFormed hb, lastChar?, segments_cons_of_first (by rw [hb]), hb]
    by_cases hmore : more = []
    · rw [hmore, chunks_nil, segments_nil]
      rfl
    · rw [List.getLast?_cons_of_ne_nil (chunks_ne_nil hmore), ih,
        List.getLast?_cons_of_ne_nil (segments_ne_nil hmore)]
      rfl

end Utf8

end DeclTags
