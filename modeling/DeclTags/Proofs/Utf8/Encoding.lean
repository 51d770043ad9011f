import DeclTags.Proofs.Utf8.Cutting

/-!
# Characters and their bytes

Decoding reads a character off a segment, and encoding writes a character
as bytes. Each undoes the other: the encoding of a character, with anything
behind it, starts with a segment that is that character
(`first_encodeChar`), and a segment that is a character has the bytes of
its encoding (`bytes_of_char`). So the well-formed segments of a byte string
are exactly encoded characters, and a statement about them can be a
statement about characters.

Both directions go through the four lengths of a well-formed sequence. The
admissible second bytes of a sequence of three or four bytes are what keeps
the two from drifting apart: without them a code point would have several
sequences, and some sequences none.
-/

namespace DeclTags

namespace Utf8

/-! ## First bytes by length -/

theorem lead?_one {b : UInt8} (h : b.toNat ≤ 0x7F) :
    lead? b = some ⟨0, 0x80, 0xBF, b.toNat⟩ := by
  have hb : b ≤ 0x7F := UInt8.le_iff_toNat_le.mpr h
  rw [lead?, if_pos hb]

theorem lead?_two {b : UInt8} (h : 0xC2 ≤ b.toNat ∧ b.toNat ≤ 0xDF) :
    lead? b = some ⟨1, 0x80, 0xBF, b.toNat - 0xC0⟩ := by
  simp only [lead?, UInt8.le_iff_toNat_le, UInt8.lt_iff_toNat_lt, UInt8.reduceToNat]
  rw [if_neg (by omega), if_neg (by omega), if_pos h.2]

theorem lead?_three {b : UInt8} (h : 0xE0 ≤ b.toNat ∧ b.toNat ≤ 0xEF) :
    lead? b = some ⟨2, if b.toNat = 0xE0 then 0xA0 else 0x80,
      if b.toNat = 0xED then 0x9F else 0xBF, b.toNat - 0xE0⟩ := by
  simp only [lead?, UInt8.le_iff_toNat_le, UInt8.lt_iff_toNat_lt, ← UInt8.toNat_inj,
    UInt8.reduceToNat]
  rw [if_neg (by omega), if_neg (by omega), if_neg (by omega)]
  by_cases h₁ : b.toNat = 0xE0
  · simp [h₁]
  · by_cases h₂ : b.toNat = 0xED
    · simp [h₂]
    · simp [h₁, h₂, h.2]

theorem lead?_four {b : UInt8} (h : 0xF0 ≤ b.toNat ∧ b.toNat ≤ 0xF4) :
    lead? b = some ⟨3, if b.toNat = 0xF0 then 0x90 else 0x80,
      if b.toNat = 0xF4 then 0x8F else 0xBF, b.toNat - 0xF0⟩ := by
  simp only [lead?, UInt8.le_iff_toNat_le, UInt8.lt_iff_toNat_lt, ← UInt8.toNat_inj,
    UInt8.reduceToNat]
  rw [if_neg (by omega), if_neg (by omega), if_neg (by omega), if_neg (by omega),
    if_neg (by omega), if_neg (by omega)]
  by_cases h₁ : b.toNat = 0xF0
  · simp [h₁]
  · by_cases h₂ : b.toNat = 0xF4
    · simp [h₂]
    · have h₃ : b.toNat ≤ 0xF3 := by omega
      simp [h₁, h₂, h₃]

/-- A first byte is one of a sequence of one, two, three or four bytes. -/
theorem range_of_lead?_isSome {b : UInt8} {l : Lead} (h : lead? b = some l) :
    b.toNat ≤ 0x7F ∨ (0xC2 ≤ b.toNat ∧ b.toNat ≤ 0xDF) ∨
      (0xE0 ≤ b.toNat ∧ b.toNat ≤ 0xEF) ∨ (0xF0 ≤ b.toNat ∧ b.toNat ≤ 0xF4) := by
  simp only [lead?, UInt8.le_iff_toNat_le, UInt8.lt_iff_toNat_lt, ← UInt8.toNat_inj,
    UInt8.reduceToNat] at h
  repeat' split at h
  all_goals first | omega | cases h

theorem tail_iff {x : UInt8} :
    ((0x80 : UInt8) ≤ x ∧ x ≤ 0xBF) ↔ 0x80 ≤ x.toNat ∧ x.toNat ≤ 0xBF := by
  rw [UInt8.le_iff_toNat_le, UInt8.le_iff_toNat_le]
  rfl

theorem second_of_three_iff {b x : UInt8} :
    ((if b.toNat = 0xE0 then 0xA0 else 0x80) ≤ x ∧
        x ≤ (if b.toNat = 0xED then 0x9F else 0xBF))
      ↔ (0x80 ≤ x.toNat ∧ x.toNat ≤ 0xBF) ∧ (b.toNat = 0xE0 → 0xA0 ≤ x.toNat) ∧
        (b.toNat = 0xED → x.toNat ≤ 0x9F) := by
  simp only [UInt8.le_iff_toNat_le]
  split <;> split <;> simp only [UInt8.reduceToNat] <;> omega

theorem second_of_four_iff {b x : UInt8} :
    ((if b.toNat = 0xF0 then 0x90 else 0x80) ≤ x ∧
        x ≤ (if b.toNat = 0xF4 then 0x8F else 0xBF))
      ↔ (0x80 ≤ x.toNat ∧ x.toNat ≤ 0xBF) ∧ (b.toNat = 0xF0 → 0x90 ≤ x.toNat) ∧
        (b.toNat = 0xF4 → x.toNat ≤ 0x8F) := by
  simp only [UInt8.le_iff_toNat_le]
  split <;> split <;> simp only [UInt8.reduceToNat] <;> omega

/-! ## Well-formed sequences by length -/

theorem first_one {b : UInt8} (h : b.toNat ≤ 0x7F) (more : Bytes) :
    first b more = ⟨[b], some (Char.ofNat b.toNat)⟩ := by
  rw [first, lead?_one h]
  simp only [trail, codePoint, List.foldl, List.length_nil, if_true]

theorem first_two {b x : UInt8} (hb : 0xC2 ≤ b.toNat ∧ b.toNat ≤ 0xDF)
    (hx : 0x80 ≤ x.toNat ∧ x.toNat ≤ 0xBF) (more : Bytes) :
    first b (x :: more)
      = ⟨[b, x], some (Char.ofNat ((b.toNat - 0xC0) * 64 + (x.toNat - 0x80)))⟩ := by
  rw [first, lead?_two hb]
  simp only [trail_cons_of_mem _ _ (tail_iff.mpr hx)]
  simp only [trail, codePoint, List.foldl, List.length_cons, List.length_nil, if_true]

theorem first_three {b x y : UInt8} (hb : 0xE0 ≤ b.toNat ∧ b.toNat ≤ 0xEF)
    (hx : (0x80 ≤ x.toNat ∧ x.toNat ≤ 0xBF) ∧ (b.toNat = 0xE0 → 0xA0 ≤ x.toNat) ∧
      (b.toNat = 0xED → x.toNat ≤ 0x9F))
    (hy : 0x80 ≤ y.toNat ∧ y.toNat ≤ 0xBF) (more : Bytes) :
    first b (x :: y :: more)
      = ⟨[b, x, y], some (Char.ofNat
          (((b.toNat - 0xE0) * 64 + (x.toNat - 0x80)) * 64 + (y.toNat - 0x80)))⟩ := by
  rw [first, lead?_three hb]
  simp only [trail_cons_of_mem _ _ (second_of_three_iff.mpr hx),
    trail_cons_of_mem _ _ (tail_iff.mpr hy)]
  simp only [trail, codePoint, List.foldl, List.length_cons, List.length_nil, if_true]

theorem first_four {b x y z : UInt8} (hb : 0xF0 ≤ b.toNat ∧ b.toNat ≤ 0xF4)
    (hx : (0x80 ≤ x.toNat ∧ x.toNat ≤ 0xBF) ∧ (b.toNat = 0xF0 → 0x90 ≤ x.toNat) ∧
      (b.toNat = 0xF4 → x.toNat ≤ 0x8F))
    (hy : 0x80 ≤ y.toNat ∧ y.toNat ≤ 0xBF) (hz : 0x80 ≤ z.toNat ∧ z.toNat ≤ 0xBF)
    (more : Bytes) :
    first b (x :: y :: z :: more)
      = ⟨[b, x, y, z], some (Char.ofNat
          ((((b.toNat - 0xF0) * 64 + (x.toNat - 0x80)) * 64 + (y.toNat - 0x80)) * 64
            + (z.toNat - 0x80)))⟩ := by
  rw [first, lead?_four hb]
  simp only [trail_cons_of_mem _ _ (second_of_four_iff.mpr hx),
    trail_cons_of_mem _ _ (tail_iff.mpr hy), trail_cons_of_mem _ _ (tail_iff.mpr hz)]
  simp only [trail, codePoint, List.foldl, List.length_cons, List.length_nil, if_true]

/-! ## From a character to its bytes and back -/

/-- The numbers of characters: no surrogates, nothing past the last plane. -/
theorem toNat_range (c : Char) :
    c.toNat < 0xD800 ∨ (0xDFFF < c.toNat ∧ c.toNat < 0x110000) := c.valid

theorem toNat_ofNat_of_lt {n : Nat} (h : n < 0x100) : (UInt8.ofNat n).toNat = n :=
  UInt8.toNat_ofNat_of_lt' h

/-- A continuation byte at the head of some bytes is an ill-formed part. -/
theorem first_of_isContinuation {b : UInt8} (h : isContinuation b = true) (rest : Bytes) :
    first b rest = ⟨[b], none⟩ := by
  rw [first]
  cases hl : lead? b with
  | none => rfl
  | some l =>
    have hr := range_of_lead?_isSome hl
    simp only [isContinuation, Bool.and_eq_true, decide_eq_true_eq,
      UInt8.le_iff_toNat_le, UInt8.reduceToNat] at h
    omega

/-- **Decoding undoes encoding**: the encoding of a character, with anything
behind it, starts with a segment that is the character. -/
theorem first_encodeChar (c : Char) (more : Bytes) :
    ∃ b tail, String.utf8EncodeChar c = b :: tail ∧
      first b (tail ++ more) = ⟨b :: tail, some c⟩ := by
  have hv := toNat_range c
  have byte (n : Nat) (h : n < 0x100) : (UInt8.ofNat n).toNat = n := toNat_ofNat_of_lt h
  have char (n : Nat) (h : n = c.toNat) : Char.ofNat n = c := by
    rw [h, Char.ofNat_toNat]
  unfold String.utf8EncodeChar
  rw [show c.val.toNat = c.toNat from rfl]
  dsimp only
  split
  case isTrue h₁ =>
    refine ⟨_, [], rfl, ?_⟩
    rw [List.nil_append, first_one (by rw [byte _ (by omega)]; exact h₁),
      char _ (byte _ (by omega))]
  case isFalse h₁ =>
    split
    case isTrue h₂ =>
      refine ⟨_, _, rfl, ?_⟩
      rw [List.cons_append, List.nil_append, first_two]
      · rw [byte _ (by omega), byte _ (by omega), char _ (by omega)]
      · rw [byte _ (by omega)]; omega
      · rw [byte _ (by omega)]; omega
    case isFalse h₂ =>
      split
      case isTrue h₃ =>
        refine ⟨_, _, rfl, ?_⟩
        rw [List.cons_append, List.cons_append, List.nil_append, first_three]
        · rw [byte _ (by omega), byte _ (by omega), byte _ (by omega), char _ (by omega)]
        · rw [byte _ (by omega)]; omega
        · rw [byte _ (by omega), byte _ (by omega)]; omega
        · rw [byte _ (by omega)]; omega
      case isFalse h₃ =>
        refine ⟨_, _, rfl, ?_⟩
        rw [List.cons_append, List.cons_append, List.cons_append, List.nil_append, first_four]
        · rw [byte _ (by omega), byte _ (by omega), byte _ (by omega), byte _ (by omega),
            char _ (by omega)]
        · rw [byte _ (by omega)]; omega
        · rw [byte _ (by omega), byte _ (by omega)]; omega
        · rw [byte _ (by omega)]; omega
        · rw [byte _ (by omega)]; omega

/-- A trail of full length, one byte at a time. -/
theorem trail_of_length {n : Nat} {low high : UInt8} {bytes : Bytes}
    (h : (trail (n + 1) low high bytes).length = n + 1) :
    ∃ x more, bytes = x :: more ∧ (low ≤ x ∧ x ≤ high) ∧
      (trail n 0x80 0xBF more).length = n := by
  match bytes with
  | [] => exact absurd h (by simp)
  | x :: more =>
    by_cases hx : low ≤ x ∧ x ≤ high
    · rw [trail_cons_of_mem n more hx] at h
      exact ⟨x, more, rfl, hx, Nat.succ.inj h⟩
    · rw [trail_cons_of_not_mem _ more hx] at h
      exact absurd h (by simp)

theorem length_trail_of_char {b : UInt8} {rest : Bytes} {l : Lead} (hl : lead? b = some l)
    (h : (first b rest).char?.isSome = true) :
    (trail l.follow l.low l.high rest).length = l.follow := by
  rw [first, hl] at h
  dsimp only at h
  split at h
  · assumption
  · exact absurd h Bool.false_ne_true

theorem toNat_ofNat_of_isValidChar {n : Nat} (h : n.isValidChar) : (Char.ofNat n).toNat = n := by
  rw [Char.ofNat, dif_pos h]
  rfl

/-- **Encoding undoes decoding**: a segment that is a character has the bytes
of its encoding. -/
theorem bytes_of_char {b : UInt8} {rest : Bytes} {c : Char}
    (h : (first b rest).char? = some c) : (first b rest).bytes = String.utf8EncodeChar c := by
  have byte (x : UInt8) (n : Nat) (hn : n = x.toNat) : UInt8.ofNat n = x := by
    rw [hn, UInt8.ofNat_toNat]
  have number (n : Nat) (hn : n.isValidChar) (hc : some (Char.ofNat n) = some c) :
      c.val.toNat = n := by
    rw [← Option.some.inj hc]
    exact toNat_ofNat_of_isValidChar hn
  cases hl : lead? b with
  | none =>
    rw [first, hl] at h
    exact absurd h (by simp)
  | some l =>
    have hn := length_trail_of_char hl (by rw [h]; rfl)
    unfold String.utf8EncodeChar
    rcases range_of_lead?_isSome hl with hb | hb | hb | hb
    · rw [first_one hb] at h ⊢
      rw [number _ (.inl (by omega)) h, if_pos hb, byte b _ rfl]
    · obtain rfl := Option.some.inj (hl.symm.trans (lead?_two hb))
      obtain ⟨x, more, rfl, hx, -⟩ := trail_of_length hn
      have hx := tail_iff.mp hx
      rw [first_two hb hx] at h ⊢
      rw [number _ (.inl (by omega)) h]
      rw [if_neg (by omega), if_pos (by omega), byte b _ (by omega), byte x _ (by omega)]
    · obtain rfl := Option.some.inj (hl.symm.trans (lead?_three hb))
      obtain ⟨x, more, rfl, hx, hn⟩ := trail_of_length hn
      obtain ⟨y, more, rfl, hy, -⟩ := trail_of_length hn
      have hx := second_of_three_iff.mp hx
      have hy := tail_iff.mp hy
      rw [first_three hb hx hy] at h ⊢
      rw [number _ (by unfold Nat.isValidChar; omega) h]
      rw [if_neg (by omega), if_neg (by omega), if_pos (by omega), byte b _ (by omega),
        byte x _ (by omega), byte y _ (by omega)]
    · obtain rfl := Option.some.inj (hl.symm.trans (lead?_four hb))
      obtain ⟨x, more, rfl, hx, hn⟩ := trail_of_length hn
      obtain ⟨y, more, rfl, hy, hn⟩ := trail_of_length hn
      obtain ⟨z, more, rfl, hz, -⟩ := trail_of_length hn
      have hx := second_of_four_iff.mp hx
      have hy := tail_iff.mp hy
      have hz := tail_iff.mp hz
      rw [first_four hb hx hy hz] at h ⊢
      rw [number _ (by unfold Nat.isValidChar; omega) h]
      rw [if_neg (by omega), if_neg (by omega), if_neg (by omega), byte b _ (by omega),
        byte x _ (by omega), byte y _ (by omega), byte z _ (by omega)]

/-! ## Encoded characters in a byte string -/

theorem encodeChar_of_lt {c : Char} (h : c.toNat < 0x80) :
    String.utf8EncodeChar c = [UInt8.ofNat c.toNat] := by
  unfold String.utf8EncodeChar
  rw [show c.val.toNat = c.toNat from rfl]
  dsimp only
  rw [if_pos (by omega)]

/-- The encoding of a character opens afresh, and the bytes behind its first
are continuation bytes. -/
theorem encodeChar_cons (c : Char) :
    ∃ b tail, String.utf8EncodeChar c = b :: tail ∧ isContinuation b = false ∧
      (∀ x ∈ tail, isContinuation x = true) ∧ (c.toNat < 0x80 ↔ b < 0x80) := by
  obtain ⟨b, tail, hc, hf⟩ := first_encodeChar c []
  rw [List.append_nil] at hf
  have hnone : isContinuation b = true → lead? b = none := by
    intro hb
    simp only [isContinuation, Bool.and_eq_true, decide_eq_true_eq,
      UInt8.le_iff_toNat_le, UInt8.reduceToNat] at hb
    cases hl : lead? b with
    | none => rfl
    | some l =>
      have := range_of_lead?_isSome hl
      omega
  refine ⟨b, tail, hc, ?_, isContinuation_of_mem_first (by rw [hf]), ?_⟩
  · cases hb : isContinuation b with
    | false => rfl
    | true =>
      rw [first, hnone hb] at hf
      exact absurd (congrArg Segment.char? hf) (by simp)
  · rw [UInt8.lt_iff_toNat_lt]
    show _ ↔ b.toNat < 0x80
    unfold String.utf8EncodeChar at hc
    rw [show c.val.toNat = c.toNat from rfl] at hc
    have hv := toNat_range c
    dsimp only at hc
    repeat' split at hc
    all_goals
      obtain ⟨rfl, -⟩ := List.cons.inj hc
      rw [UInt8.toNat_ofNat']
      omega

theorem encodeChar_ne_nil (c : Char) : String.utf8EncodeChar c ≠ [] := by
  obtain ⟨b, tail, he, -⟩ := encodeChar_cons c
  rw [he]
  exact List.cons_ne_nil b tail

theorem opensAfresh_encodeChar (c : Char) (more : Bytes) :
    opensAfresh (String.utf8EncodeChar c ++ more) = true := by
  obtain ⟨b, tail, hc, hb, -⟩ := encodeChar_cons c
  rw [hc, List.cons_append, opensAfresh_cons, hb]
  rfl

/-- An encoded character is a segment of its own. -/
theorem segments_encodeChar_append (c : Char) (more : Bytes) :
    segments (String.utf8EncodeChar c ++ more)
      = ⟨String.utf8EncodeChar c, some c⟩ :: segments more := by
  obtain ⟨b, tail, hc, hf⟩ := first_encodeChar c more
  rw [hc, List.cons_append, segments_cons_of_first (by rw [hf]), hf]

theorem segments_encode_append (text : List Char) (more : Bytes) :
    segments (encode text ++ more)
      = text.map (fun c => ⟨String.utf8EncodeChar c, some c⟩) ++ segments more := by
  induction text with
  | nil => rfl
  | cons c text ih =>
    rw [encode, List.flatMap_cons, List.append_assoc, segments_encodeChar_append]
    exact congrArg (_ :: ·) ih

/-- The segments of a text are its characters. -/
theorem segments_encode (text : List Char) :
    segments (encode text) = text.map fun c => ⟨String.utf8EncodeChar c, some c⟩ := by
  have hs := segments_encode_append text []
  rwa [List.append_nil, segments_nil, List.append_nil] at hs

/-- A text is what its bytes read as. -/
theorem lossy_encode (text : List Char) : lossy (encode text) = String.ofList text := by
  rw [lossy, segments_encode, List.map_map]
  exact congrArg String.ofList (List.map_id text)

/-- **Induction over the characters of a byte string**: a statement holds of
all byte strings if it holds of the empty one, of an encoded character in
front of bytes that it holds of, and of an ill-formed part in front of such
bytes. -/
theorem char_induction {P : Bytes → Prop} (nil : P [])
    (char : ∀ (c : Char) (more : Bytes), P more → P (String.utf8EncodeChar c ++ more))
    (illFormed : ∀ (b : UInt8) (tail more : Bytes),
      first b (tail ++ more) = ⟨b :: tail, none⟩ → P more → P (b :: (tail ++ more)))
    (bytes : Bytes) : P bytes := by
  induction bytes using segments_induction with
  | nil => exact nil
  | cons b tail more hs ih =>
    cases hc : (first b (tail ++ more)).char? with
    | none =>
      refine illFormed b tail more ?_ ih
      rw [← hs, ← hc]
    | some c =>
      rw [← List.cons_append, ← hs, bytes_of_char hc]
      exact char c more ih

/-- Bytes that end in an encoded character end whole. -/
theorem endsWhole_append_encodeChar (bytes : Bytes) (c : Char) :
    EndsWhole (bytes ++ String.utf8EncodeChar c) := by
  have hs := segments_append_of_opensAfresh bytes (opensAfresh_encodeChar c [])
  rw [segments_encodeChar_append, List.append_nil, segments_nil] at hs
  intro s hl
  rw [hs, List.getLast?_append] at hl
  obtain rfl := Option.some.inj hl
  rfl

end Utf8

end DeclTags
