import DeclTags.Utf8

/-!
# Where a byte string may be cut

UTF-8 is decoded from left to right, and a segment of a byte string depends
on the bytes behind it: they may carry on the character it starts. A cut of
the bytes in two is therefore not always a cut of the segments in two. It is
one in two cases, and the theory of the scanner needs both.

* The second part **opens afresh**: it is empty, or its first byte is not a
  continuation byte. No segment reaches over such a byte
  (`segments_append_of_opensAfresh`).
* The first part **ends whole**: its last segment is a character. A character
  takes no more bytes than it needs (`segments_append_of_endsWhole`).

Only the first byte behind a segment decides whether it goes on, which is
what `first_append_congr` says.
-/

namespace DeclTags

namespace Utf8

/-- Is this a continuation byte, one that starts no character? -/
def isContinuation (b : UInt8) : Bool := 0x80 ≤ b && b ≤ 0xBF

/-- **No character goes on into these bytes**: there are none, or the first
is not a continuation byte. -/
def opensAfresh : Bytes → Bool
  | [] => true
  | b :: _ => !isContinuation b

/-- **No character goes on behind these bytes**: there are none, or their
last segment is a character. -/
def EndsWhole (bytes : Bytes) : Prop :=
  ∀ s, (segments bytes).getLast? = some s → s.char?.isSome = true

@[simp] theorem opensAfresh_cons (b : UInt8) (rest : Bytes) :
    opensAfresh (b :: rest) = !isContinuation b := rfl

/-- A byte of ASCII is no continuation byte. -/
theorem isContinuation_of_lt {b : UInt8} (h : b < 0x80) : isContinuation b = false := by
  have hb : ¬ (0x80 : UInt8) ≤ b := UInt8.not_le.mpr h
  simp [isContinuation, hb]

theorem le_of_isContinuation {b : UInt8} (h : isContinuation b = true) : 0x80 ≤ b := by
  simp only [isContinuation, Bool.and_eq_true, decide_eq_true_eq] at h
  exact h.1

/-! ## Bytes that continue a character -/

/-- Whatever a first byte promises, the bytes that follow it are continuation
bytes. -/
theorem range_of_lead? {b : UInt8} {l : Lead} (h : lead? b = some l) :
    0x80 ≤ l.low ∧ l.high ≤ 0xBF := by
  unfold lead? at h
  repeat' split at h
  all_goals cases h
  all_goals
    dsimp only
    decide

theorem trail_cons_of_mem (n : Nat) {low high b : UInt8} (rest : Bytes)
    (h : low ≤ b ∧ b ≤ high) :
    trail (n + 1) low high (b :: rest) = b :: trail n 0x80 0xBF rest := by
  rw [trail, if_pos h]

theorem trail_cons_of_not_mem (n : Nat) {low high b : UInt8} (rest : Bytes)
    (h : ¬ (low ≤ b ∧ b ≤ high)) : trail n low high (b :: rest) = [] := by
  cases n with
  | zero => rfl
  | succ n => rw [trail, if_neg h]

@[simp] theorem trail_nil (n : Nat) (low high : UInt8) : trail n low high [] = [] := by
  cases n <;> rfl

/-- All bytes of a trail are continuation bytes. -/
theorem isContinuation_of_mem_trail (n : Nat) {low high : UInt8} (bytes : Bytes)
    (hl : 0x80 ≤ low) (hh : high ≤ 0xBF) :
    ∀ b ∈ trail n low high bytes, isContinuation b = true := by
  induction bytes generalizing n low high with
  | nil => simp
  | cons c rest ih =>
    intro b hb
    cases n with
    | zero => exact absurd hb (List.not_mem_nil)
    | succ n =>
      by_cases hc : low ≤ c ∧ c ≤ high
      · rw [trail_cons_of_mem n rest hc] at hb
        rcases List.mem_cons.mp hb with rfl | hb
        · simp only [isContinuation, Bool.and_eq_true, decide_eq_true_eq]
          exact ⟨UInt8.le_trans hl hc.1, UInt8.le_trans hc.2 hh⟩
        · exact ih n (UInt8.le_refl _) (UInt8.le_refl _) b hb
      · rw [trail_cons_of_not_mem _ rest hc] at hb
        exact absurd hb (List.not_mem_nil)

/-- **A trail ends where the next byte does not continue it.** Behind the
bytes `t` of a trail, only the next byte counts: if it opens afresh, or is
the byte that ended the trail, the trail is `t` again. -/
theorem trail_append_congr (n : Nat) {low high : UInt8} {t x y : Bytes}
    (hl : 0x80 ≤ low) (hh : high ≤ 0xBF) (ht : trail n low high (t ++ x) = t)
    (hy : opensAfresh y = true ∨ y.head? = x.head?) : trail n low high (t ++ y) = t := by
  induction t generalizing n low high with
  | nil =>
    rw [List.nil_append] at ht ⊢
    match y with
    | [] => exact trail_nil n low high
    | b :: rest =>
      cases n with
      | zero => rfl
      | succ n =>
        by_cases hb : low ≤ b ∧ b ≤ high
        · -- the byte would go on, so it neither opens afresh nor ended the trail
          rcases hy with hy | hy
          · have hc : isContinuation b = true := by
              simp only [isContinuation, Bool.and_eq_true, decide_eq_true_eq]
              exact ⟨UInt8.le_trans hl hb.1, UInt8.le_trans hb.2 hh⟩
            rw [opensAfresh_cons, hc] at hy
            exact absurd hy Bool.false_ne_true
          · match x with
            | [] => exact absurd hy (by simp)
            | c :: more =>
              obtain rfl : b = c := by simpa using hy
              rw [trail_cons_of_mem n more hb] at ht
              exact absurd ht (by simp)
        · exact trail_cons_of_not_mem _ rest hb
  | cons b t ih =>
    cases n with
    | zero => exact absurd ht (by simp [trail])
    | succ n =>
      by_cases hb : low ≤ b ∧ b ≤ high
      · rw [List.cons_append, trail_cons_of_mem n _ hb] at ht ⊢
        exact congrArg (b :: ·) (ih n (UInt8.le_refl _) (UInt8.le_refl _) (List.cons.inj ht).2)
      · rw [List.cons_append, trail_cons_of_not_mem _ _ hb] at ht
        exact absurd ht (by simp)

/-- A trail that has all the bytes it needs takes no more. -/
theorem trail_append_of_length (n : Nat) {low high : UInt8} {t x y : Bytes}
    (ht : trail n low high (t ++ x) = t) (hn : t.length = n) :
    trail n low high (t ++ y) = t := by
  induction t generalizing n low high with
  | nil =>
    subst hn
    rfl
  | cons b t ih =>
    subst hn
    by_cases hb : low ≤ b ∧ b ≤ high
    · rw [List.cons_append, List.length_cons, trail_cons_of_mem _ _ hb] at ht ⊢
      exact congrArg (b :: ·) (ih t.length (List.cons.inj ht).2 rfl)
    · rw [List.cons_append, trail_cons_of_not_mem _ _ hb] at ht
      exact absurd ht (by simp)

/-! ## The first segment -/

/-- The bytes of a segment behind its first are continuation bytes. -/
theorem isContinuation_of_mem_first {b : UInt8} {rest tail : Bytes}
    (h : (first b rest).bytes = b :: tail) : ∀ c ∈ tail, isContinuation c = true := by
  unfold first at h
  split at h
  · obtain rfl := (List.cons.inj h).2
    simp
  · rename_i l hl
    obtain rfl := (List.cons.inj h).2
    obtain ⟨h₁, h₂⟩ := range_of_lead? hl
    exact isContinuation_of_mem_trail _ _ h₁ h₂

/-- **Only the byte behind a segment decides where it ends.** -/
theorem first_append_congr {b : UInt8} {tail x y : Bytes}
    (h : (first b (tail ++ x)).bytes = b :: tail)
    (hy : opensAfresh y = true ∨ y.head? = x.head?) :
    first b (tail ++ y) = first b (tail ++ x) := by
  unfold first at h ⊢
  split at h
  · rfl
  · rename_i l hl
    have ht := (List.cons.inj h).2
    obtain ⟨h₁, h₂⟩ := range_of_lead? hl
    simp only
    rw [trail_append_congr _ h₁ h₂ ht hy, ht]

/-- Bytes that open afresh do not belong to a segment before them. -/
theorem first_append_of_opensAfresh (b : UInt8) (rest : Bytes) {y : Bytes}
    (h : opensAfresh y = true) : first b (rest ++ y) = first b rest := by
  obtain ⟨tail, hs, more, rfl⟩ := first_bytes b rest
  rw [List.append_assoc]
  refine first_append_congr hs ?_
  cases more with
  | nil => exact .inl h
  | cons c more => exact .inr rfl

/-- A segment that is a character stays one, whatever stands behind it. -/
theorem first_append_of_char {b : UInt8} {tail x y : Bytes}
    (h : (first b (tail ++ x)).bytes = b :: tail)
    (hc : (first b (tail ++ x)).char?.isSome = true) :
    first b (tail ++ y) = first b (tail ++ x) := by
  unfold first at h hc ⊢
  split at h
  · rfl
  · rename_i l hl
    have ht := (List.cons.inj h).2
    simp only [hl, ht] at hc ⊢
    have hn : tail.length = l.follow := by
      by_cases hn : tail.length = l.follow
      · exact hn
      · rw [if_neg hn] at hc
        exact absurd hc Bool.false_ne_true
    rw [trail_append_of_length _ ht hn]

/-- A character that a window shows stands there, whatever is behind the
window. -/
theorem first_of_first_take {b : UInt8} {rest : Bytes} {c : Char} {n : Nat}
    (h : (first b (rest.take n)).char? = some c) : (first b rest).char? = some c := by
  obtain ⟨tail, hbytes, more, htail⟩ := first_bytes b (rest.take n)
  have hrest : rest = tail ++ (more ++ rest.drop n) := by
    rw [← List.append_assoc, htail, List.take_append_drop]
  rw [← htail] at hbytes h
  rw [hrest, first_append_of_char hbytes (by rw [h]; rfl), h]

/-! ## Cutting segments -/

@[simp] theorem segments_nil : segments [] = [] := by
  rw [segments]

/-- **The first segment peeled off**: the bytes behind the first one divide
into those the segment takes and those the other segments are read from. -/
theorem segments_cons (b : UInt8) (rest : Bytes) :
    ∃ tail more, rest = tail ++ more ∧ (first b rest).bytes = b :: tail ∧
      segments (b :: rest) = first b rest :: segments more := by
  obtain ⟨tail, hs, more, rfl⟩ := first_bytes b rest
  refine ⟨tail, more, rfl, hs, ?_⟩
  rw [segments]
  simp only [hs, List.length_cons, Nat.add_sub_cancel, List.drop_left]

theorem segments_cons_of_first {b : UInt8} {tail more : Bytes}
    (h : (first b (tail ++ more)).bytes = b :: tail) :
    segments (b :: (tail ++ more)) = first b (tail ++ more) :: segments more := by
  rw [segments]
  simp only [h, List.length_cons, Nat.add_sub_cancel, List.drop_left]

theorem segments_ne_nil {bytes : Bytes} (h : bytes ≠ []) : segments bytes ≠ [] := by
  match bytes with
  | [] => exact absurd rfl h
  | b :: rest =>
    obtain ⟨tail, more, -, -, hs⟩ := segments_cons b rest
    rw [hs]
    exact List.cons_ne_nil _ _

/-- **Induction over the segments of a byte string.** A statement holds of
all byte strings if it holds of the empty one and of every segment in front
of bytes that it holds of. -/
theorem segments_induction {P : Bytes → Prop} (nil : P [])
    (cons : ∀ (b : UInt8) (tail more : Bytes),
      (first b (tail ++ more)).bytes = b :: tail → P more → P (b :: (tail ++ more)))
    (bytes : Bytes) : P bytes := by
  induction hn : bytes.length using Nat.strongRecOn generalizing bytes with
  | _ n ih =>
    match bytes with
    | [] => exact nil
    | b :: rest =>
      obtain ⟨tail, more, rfl, hs, -⟩ := segments_cons b rest
      refine cons b tail more hs (ih more.length ?_ more rfl)
      rw [List.length_cons, List.length_append] at hn
      omega

/-- **A cut before bytes that open afresh cuts the segments.** -/
theorem segments_append_of_opensAfresh (x : Bytes) {y : Bytes} (h : opensAfresh y = true) :
    segments (x ++ y) = segments x ++ segments y := by
  induction x using segments_induction with
  | nil => rw [List.nil_append, segments_nil, List.nil_append]
  | cons b tail more hs ih =>
    have hf : first b (tail ++ (more ++ y)) = first b (tail ++ more) := by
      rw [← List.append_assoc]
      exact first_append_of_opensAfresh b _ h
    rw [List.cons_append, List.append_assoc,
      segments_cons_of_first (by rw [hf, hs]), segments_cons_of_first hs, hf, ih]
    rfl

/-- **A cut behind bytes that end whole cuts the segments.** -/
theorem segments_append_of_endsWhole {x : Bytes} (y : Bytes) (h : EndsWhole x) :
    segments (x ++ y) = segments x ++ segments y := by
  induction x using segments_induction with
  | nil => rw [List.nil_append, segments_nil, List.nil_append]
  | cons b tail more hs ih =>
    have hx := segments_cons_of_first hs
    -- either this is the last segment, and whole, or the next byte is there already
    have hf : first b (tail ++ (more ++ y)) = first b (tail ++ more) := by
      cases more with
      | nil =>
        refine first_append_of_char hs (h _ ?_)
        rw [hx, segments_nil]
        rfl
      | cons c more => exact first_append_congr hs (.inr rfl)
    have hm : EndsWhole more := by
      intro s hl
      refine h s ?_
      rw [hx, List.getLast?_cons, hl]
      rfl
    rw [List.cons_append, List.append_assoc,
      segments_cons_of_first (by rw [hf, hs]), hx, hf, ih hm]
    rfl

@[simp] theorem endsWhole_nil : EndsWhole [] := by
  intro s hs
  rw [segments_nil] at hs
  exact absurd hs (by simp)

end Utf8

end DeclTags
