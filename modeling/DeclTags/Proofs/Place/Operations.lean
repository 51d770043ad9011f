import DeclTags.Proofs.Blanking
import DeclTags.Proofs.Place.Offset

/-!
# Operations on a place

Whoever reads a line by hand has five ways to move on, and asking a question
is a sixth thing to do, which does not move. Sequences of such operations are
what this module is about. Every one of them stays in the line, whatever is
asked for, so the bytes read and the bytes still to come are the line again.

Going forward is another matter. All operations but one read on from where
they are. The exception is a move by a machine word, because the sum of the
offset and that word is a machine word too. If the sum reaches `2 ^ 64`
(`Operation.Overflows`), the sequence breaks off or the place comes out before
the one it started from, as `Overflow` has it. Either way it is not where exact
arithmetic says, which is at the end of the line. Nothing else goes wrong: a
sequence is carried out to its end, and from each of its places to each later
one goes forward, exactly if no sum in it overflows (`complete_iff`).

All other sums are computed in machine words as well (`Operation.target?`).
They are sums of the offset and a number of bytes that are there, and none of
them overflows in a line that is itself addressed by machine words
(`Operation.target?_eq`).
-/

namespace DeclTags

namespace Place

variable {p q r : Place} {n : Nat}

/-! ## Reading on -/

/-- **One place is reached from another by reading on**: it is in the same
line, and the bytes between the two are what has been consumed on the way. -/
structure ReadsTo (p q : Place) : Prop where
  /-- It is in the same line. -/
  line_eq : q.line = p.line
  /-- It is not before the other. -/
  offset_le : p.offset ≤ q.offset
  /-- The bytes in between come first. -/
  after_eq : p.after = p.line.extract p.offset q.offset ++ q.after

namespace ReadsTo

/-- A later place of the same line is reached by reading on. -/
theorem of_offset_le (hline : q.line = p.line) (h : p.offset ≤ q.offset) : p.ReadsTo q := by
  refine ⟨hline, h, ?_⟩
  rw [← q.drop_offset, hline, ← p.drop_offset, List.extract_eq_take_drop,
    ← Nat.add_sub_cancel' h, ← List.drop_drop, Nat.add_sub_cancel_left, List.take_append_drop]

theorem refl (p : Place) : p.ReadsTo p := of_offset_le rfl (Nat.le_refl _)

theorem trans (h : p.ReadsTo q) (h' : q.ReadsTo r) : p.ReadsTo r :=
  of_offset_le (h'.line_eq.trans h.line_eq) (Nat.le_trans h.offset_le h'.offset_le)

theorem forward (n : Nat) (p : Place) : p.ReadsTo (p.forward n) :=
  of_offset_le (line_forward n p) (offset_le_forward n p)

end ReadsTo

/-! ## Machine words -/

theorem offset_toEnd (p : Place) : p.toEnd.offset = p.line.length := by
  rw [toEnd, offset_forward, Nat.min_self, length_line]

/-- **A move by a word whose sum fits into a word** moves on by that many
bytes. -/
theorem advance?_of_lt (o : Overflow) {n : UInt64} (h : p.offset + n.toNat < UInt64.size) :
    p.advance? o n = some (p.forward n.toNat) := by
  rw [advance?, o.sum?_of_lt h, Option.map_some, forward_eq_atOffset]

/-- **A move by a word whose sum does not fit** breaks off, or goes back. -/
theorem advance?_of_le {n : UInt64} (h : UInt64.size ≤ p.offset + n.toNat) :
    p.advance? .trap n = none ∧
      ∃ q, p.advance? .wrap n = some q ∧ q.line = p.line ∧ q.offset < p.offset := by
  have hn : n.toNat < UInt64.size := n.toNat_lt_size
  have hwrapped : (p.offset + n.toNat) % UInt64.size < p.offset := by
    rw [Nat.mod_eq_sub_mod h]
    exact Nat.lt_of_le_of_lt (Nat.mod_le _ _) (by omega)
  refine ⟨by rw [advance?, Overflow.sum?_trap h]; rfl, _,
    by rw [advance?, Overflow.sum?_wrap h]; rfl, line_atOffset _ p, ?_⟩
  rw [offset_atOffset]
  exact Nat.lt_of_le_of_lt (Nat.min_le_left _ _) hwrapped

/-- **A move by a word is exact** if its sum does not overflow, and only then. -/
theorem advance?_exact_iff {o : Overflow} {n : UInt64} :
    (p.advance? o n).map offset = some (min (p.offset + n.toNat) p.line.length) ↔
      ¬ UInt64.size ≤ p.offset + n.toNat := by
  refine ⟨fun hexact h => ?_, fun h => ?_⟩
  · obtain ⟨htrap, q, hwrap, -, hback⟩ := advance?_of_le h
    cases o with
    | trap => simp [htrap] at hexact
    | wrap =>
      -- what goes back does not stop ahead
      have hoffset : q.offset = min (p.offset + n.toNat) p.line.length := by
        simpa [hwrap] using hexact
      have hle := p.offset_le_length
      omega
  · rw [advance?_of_lt o (Nat.lt_of_not_le h), Option.map_some, forward_eq_atOffset,
      offset_atOffset]

/-- An occurrence ends where the bytes end or before. -/
theorem occurrence?_le {b : UInt8} {more bytes : Bytes}
    (h : occurrence? b more bytes = some n) : n + (more.length + 1) ≤ bytes.length := by
  induction bytes generalizing n with
  | nil => exact absurd h (by simp [occurrence?])
  | cons c rest ih =>
    rw [occurrence?] at h
    split at h
    · rename_i hprefix
      obtain rfl := Option.some.inj h
      rw [Nat.zero_add]
      exact (List.isPrefixOf_iff_prefix.mp hprefix).length_le
    · obtain ⟨m, hm, rfl⟩ := Option.map_eq_some_iff.mp h
      have := ih hm
      rw [List.length_cons]
      omega

end Place

/-- **What can be done with a place.** -/
inductive Operation
  /-- Moving on by a machine word. -/
  | advance (n : UInt64)
  /-- Going to the end of the line. -/
  | toEnd
  /-- Skipping the blanks. -/
  | skipBlanks
  /-- Going behind the next occurrence of some bytes, of which there is at
  least one. -/
  | skipPast (b : UInt8) (more : Bytes)
  /-- Going behind the word. -/
  | skipWord
  /-- Asking a question. -/
  | ask

namespace Operation

/-- Where an operation goes, if sums are exact. -/
def move : Operation → Place → Place
  | advance n, p => p.forward n.toNat
  | toEnd, p => p.toEnd
  | skipBlanks, p => p.skipBlanks
  | skipPast b more, p => (p.skipPast b more).1
  | skipWord, p => p.skipWord
  | ask, p => p

/-- **Where an operation goes**, unless it breaks off. -/
def move? (o : Overflow) : Operation → Place → Option Place
  | advance n, p => p.advance? o n
  | toEnd, p => some p.toEnd
  | skipBlanks, p => some p.skipBlanks
  | skipPast b more, p => some (p.skipPast b more).1
  | skipWord, p => some p.skipWord
  | ask, p => some p

/-- Does the sum of an operation reach `2 ^ 64`? -/
def Overflows : Operation → Place → Prop
  | advance n, p => UInt64.size ≤ p.offset + n.toNat
  | _, _ => False

instance decidableOverflows : (op : Operation) → (p : Place) → Decidable (op.Overflows p)
  | advance n, p => inferInstanceAs (Decidable (UInt64.size ≤ p.offset + n.toNat))
  | toEnd, _ | skipBlanks, _ | skipPast .., _ | skipWord, _ | ask, _ => .isFalse id

/-- **The offset that an operation goes to**, with every sum in machine
words. -/
def target? (o : Overflow) : Operation → Place → Option Nat
  | advance n, p => (o.sum? p.offset n.toNat).map (min · p.line.length)
  | toEnd, p => some p.line.length
  | skipBlanks, p => o.sum? p.offset (blanksAt p.after)
  | skipPast b more, p =>
    match Place.occurrence? b more p.after with
    | some n =>
      (o.sum? n (more.length + 1)).bind fun m =>
        (o.sum? p.offset m).map (min · p.line.length)
    | none => some p.line.length
  | skipWord, p => o.sum? p.offset p.word.length
  | ask, p => some p.offset

variable {o : Overflow} {op : Operation} {p q : Place}

/-- An operation reads on, if sums are exact. -/
theorem readsTo_move (op : Operation) (p : Place) : p.ReadsTo (op.move p) := by
  cases op with
  | advance | toEnd | skipBlanks | skipWord => exact .forward _ p
  | skipPast b more =>
    rw [move, Place.skipPast]
    cases Place.occurrence? b more p.after with
    | some n => exact .forward _ p
    | none => exact .forward _ p
  | ask => exact .refl p

/-- **Without an overflow** an operation goes where exact sums say. -/
theorem move?_of_fits (o : Overflow) (h : ¬ op.Overflows p) : op.move? o p = some (op.move p) := by
  cases op with
  | advance n => exact Place.advance?_of_lt o (Nat.lt_of_not_le h)
  | toEnd | skipBlanks | skipPast | skipWord | ask => rfl

theorem move?_trap (h : op.Overflows p) : op.move? .trap p = none := by
  cases op with
  | advance n => exact (Place.advance?_of_le h).1
  | toEnd | skipBlanks | skipPast | skipWord | ask => exact h.elim

theorem exists_move?_wrap (h : op.Overflows p) :
    ∃ q, op.move? .wrap p = some q ∧ q.line = p.line ∧ q.offset < p.offset := by
  cases op with
  | advance n => exact (Place.advance?_of_le h).2
  | toEnd | skipBlanks | skipPast | skipWord | ask => exact h.elim

/-- **An operation stays in the line**, whatever becomes of an overflow. -/
theorem line_of_move? (h : op.move? o p = some q) : q.line = p.line := by
  by_cases hover : op.Overflows p
  · cases o with
    | trap => exact absurd (h.symm.trans (move?_trap hover)) (by simp)
    | wrap =>
      obtain ⟨r, hr, hline, -⟩ := exists_move?_wrap hover
      rwa [Option.some.inj (h.symm.trans hr)]
  · rw [← Option.some.inj ((move?_of_fits o hover).symm.trans h)]
    exact (readsTo_move op p).line_eq

/-- **Machine words are enough** in a line whose length is one. -/
theorem target?_eq (o : Overflow) (op : Operation) (h : p.line.length < UInt64.size) :
    op.target? o p = (op.move? o p).map Place.offset := by
  have hlength := p.length_line
  -- a number of bytes that are there can be added
  have hahead {n : Nat} (hn : n ≤ p.after.length) :
      o.sum? p.offset n = some (p.forward n).offset := by
    rw [o.sum?_of_lt (by omega), Place.offset_forward, Nat.min_eq_left hn]
  cases op with
  | advance n =>
    rw [target?, move?, Place.advance?, Option.map_map]
    exact congrArg (Option.map · _) (funext fun m => (Place.offset_atOffset m p).symm)
  | toEnd => rw [target?, move?, Option.map_some, Place.offset_toEnd]
  | skipBlanks => exact hahead (blanksAt_le p.after)
  | skipPast b more =>
    rw [target?, move?, Place.skipPast]
    cases hn : Place.occurrence? b more p.after with
    | some n =>
      have hle := Place.occurrence?_le hn
      have hneedle : o.sum? n (more.length + 1) = some (n + (more.length + 1)) :=
        o.sum?_of_lt (by omega)
      dsimp only
      rw [hneedle, Option.bind_some, hahead hle, Option.map_some, Option.map_some]
      refine congrArg some (Nat.min_eq_left ?_)
      rw [← Place.line_forward (n + (more.length + 1)) p]
      exact Place.offset_le_length _
    | none =>
      dsimp only
      rw [Option.map_some, Place.offset_toEnd]
  | skipWord => exact hahead (wordAt_isPrefix p.after).length_le
  | ask => rfl

end Operation

/-! ## Sequences of operations -/

/-- **The places that some operations go through**, the first and the last
included. Behind an operation that breaks off there are none. -/
def trail (o : Overflow) : List Operation → Place → List Place
  | [], p => [p]
  | op :: ops, p => p :: ((op.move? o p).map (trail o ops)).getD []

/-- No sum overflows on the way. -/
def Steady : List Operation → Place → Prop
  | [], _ => True
  | op :: ops, p => ¬ op.Overflows p ∧ Steady ops (op.move p)

instance decidableSteady : (ops : List Operation) → (p : Place) → Decidable (Steady ops p)
  | [], _ => .isTrue trivial
  | op :: ops, p =>
    have := decidableSteady ops (op.move p)
    inferInstanceAs (Decidable (¬ op.Overflows p ∧ Steady ops (op.move p)))

variable {o : Overflow} {op : Operation} {ops : List Operation} {p q : Place}

theorem trail_cons_of_fits (o : Overflow) (ops : List Operation) (h : ¬ op.Overflows p) :
    trail o (op :: ops) p = p :: trail o ops (op.move p) := by
  rw [trail, Operation.move?_of_fits o h]
  rfl

theorem trail_trap_cons (ops : List Operation) (h : op.Overflows p) :
    trail .trap (op :: ops) p = [p] := by
  rw [trail, Operation.move?_trap h]
  rfl

theorem exists_trail_wrap_cons (op : Operation) (ops : List Operation) (p : Place) :
    ∃ q, trail .wrap (op :: ops) p = p :: trail .wrap ops q ∧
      (op.Overflows p → q.offset < p.offset) := by
  by_cases h : op.Overflows p
  · obtain ⟨q, hq, -, hback⟩ := Operation.exists_move?_wrap h
    refine ⟨q, ?_, fun _ => hback⟩
    rw [trail, hq]
    rfl
  · exact ⟨_, trail_cons_of_fits .wrap ops h, fun hover => absurd hover h⟩

theorem mem_trail_self (o : Overflow) (ops : List Operation) (p : Place) : p ∈ trail o ops p := by
  cases ops with
  | nil => exact List.mem_singleton_self p
  | cons op ops => exact List.mem_cons_self

/-- **All places of a sequence are in one line.** -/
theorem line_of_mem_trail (h : q ∈ trail o ops p) : q.line = p.line := by
  induction ops generalizing p with
  | nil => rw [List.mem_singleton.mp h]
  | cons op ops ih =>
    rcases List.mem_cons.mp h with rfl | h
    · rfl
    · cases hmove : op.move? o p with
      | none =>
        rw [hmove] at h
        exact absurd h List.not_mem_nil
      | some r =>
        rw [hmove] at h
        rw [ih h, Operation.line_of_move? hmove]

/-- Whoever breaks off has not gone back before. -/
theorem readsTo_of_mem_trail_trap (h : q ∈ trail .trap ops p) : p.ReadsTo q := by
  induction ops generalizing p with
  | nil =>
    rw [List.mem_singleton.mp h]
    exact .refl p
  | cons op ops ih =>
    by_cases hover : op.Overflows p
    · rw [trail_trap_cons ops hover, List.mem_singleton] at h
      rw [h]
      exact .refl p
    · rw [trail_cons_of_fits .trap ops hover] at h
      rcases List.mem_cons.mp h with rfl | h
      · exact .refl q
      · exact (op.readsTo_move p).trans (ih h)

/-- **A sequence that may break off goes forward**, as far as it goes. -/
theorem pairwise_trail_trap (ops : List Operation) (p : Place) :
    (trail .trap ops p).Pairwise Place.ReadsTo := by
  induction ops generalizing p with
  | nil => exact List.pairwise_singleton _ p
  | cons op ops ih =>
    by_cases hover : op.Overflows p
    · rw [trail_trap_cons ops hover]
      exact List.pairwise_singleton _ p
    · rw [trail_cons_of_fits .trap ops hover]
      exact List.pairwise_cons.mpr
        ⟨fun q hq => (op.readsTo_move p).trans (readsTo_of_mem_trail_trap hq), ih _⟩

/-- **A sequence that may go back is carried out to its end.** -/
theorem length_trail_wrap (ops : List Operation) (p : Place) :
    (trail .wrap ops p).length = ops.length + 1 := by
  induction ops generalizing p with
  | nil => rfl
  | cons op ops ih =>
    obtain ⟨q, htrail, -⟩ := exists_trail_wrap_cons op ops p
    rw [htrail, List.length_cons, ih q, List.length_cons]

/-- Without an overflow it does not matter what becomes of one. -/
theorem trail_of_steady (o : Overflow) (h : Steady ops p) : trail o ops p = trail .trap ops p := by
  induction ops generalizing p with
  | nil => rfl
  | cons op ops ih => rw [trail_cons_of_fits o ops h.1, trail_cons_of_fits .trap ops h.1, ih h.2]

theorem steady_of_complete (hlength : (trail o ops p).length = ops.length + 1)
    (hforward : (trail o ops p).Pairwise Place.ReadsTo) : Steady ops p := by
  induction ops generalizing p with
  | nil => trivial
  | cons op ops ih =>
    by_cases hover : op.Overflows p
    · cases o with
      | trap =>
        rw [trail_trap_cons ops hover] at hlength
        simp at hlength
      | wrap =>
        obtain ⟨q, htrail, hback⟩ := exists_trail_wrap_cons op ops p
        rw [htrail, List.pairwise_cons] at hforward
        have hle := (hforward.1 q (mem_trail_self .wrap ops q)).offset_le
        exact absurd (hback hover) (Nat.not_lt.mpr hle)
    · rw [trail_cons_of_fits o ops hover] at hlength hforward
      exact ⟨hover, ih (Nat.succ.inj hlength) (List.pairwise_cons.mp hforward).2⟩

/-- **A sequence is carried out to its end and goes forward**, exactly if no
sum in it overflows. -/
theorem complete_iff (o : Overflow) : (trail o ops p).length = ops.length + 1 ∧
    (trail o ops p).Pairwise Place.ReadsTo ↔ Steady ops p := by
  refine ⟨fun h => steady_of_complete h.1 h.2, fun h => ?_⟩
  rw [trail_of_steady o h]
  refine ⟨?_, pairwise_trail_trap ops p⟩
  rw [← trail_of_steady .wrap h, length_trail_wrap]

/-- **What operations do from the start of a line on**, whatever becomes of an
overflow. Each place that they go through is in the line, up to its first NUL
byte, and the bytes read there and the bytes still to come are that line. A
move by a word from there stops at the sum of offset and word, or at the end of
the line if that is nearer, exactly if the sum does not overflow; and machine
words give the offset that each operation goes to. All operations are carried
out and go forward, with what stands between two places as what has been
consumed between them, exactly if no sum overflows. If one does, the sequence
breaks off and has gone forward until then, or it goes on. -/
theorem operations_go_forward (o : Overflow) (bytes : Bytes) (ops : List Operation) :
    (∀ q ∈ trail o ops (Place.start bytes),
      q.line = cut bytes ∧ q.offset ≤ (cut bytes).length ∧
      (cut bytes).take q.offset ++ q.after = cut bytes ∧
      (∀ n, (q.advance? o n).map Place.offset
          = some (min (q.offset + n.toNat) (cut bytes).length) ↔
        ¬ (Operation.advance n).Overflows q) ∧
      ((cut bytes).length < UInt64.size →
        ∀ op : Operation, op.target? o q = (op.move? o q).map Place.offset)) ∧
    ((trail o ops (Place.start bytes)).length = ops.length + 1 ∧
      (trail o ops (Place.start bytes)).Pairwise Place.ReadsTo ↔
        Steady ops (Place.start bytes)) ∧
    (trail .trap ops (Place.start bytes)).Pairwise Place.ReadsTo ∧
    (trail .wrap ops (Place.start bytes)).length = ops.length + 1 := by
  refine ⟨fun q hq => ?_, complete_iff o, pairwise_trail_trap ops _, length_trail_wrap ops _⟩
  have hline : q.line = cut bytes := line_of_mem_trail hq
  rw [← hline]
  refine ⟨rfl, q.offset_le_length, ?_, fun n => q.advance?_exact_iff, fun hlength op =>
    op.target?_eq o hlength⟩
  rw [← q.drop_offset, List.take_append_drop]

/-- Reading a declaration by hand. -/
theorem operations_go_forward_declaration :
    let p := Place.start (Utf8.ofString "  var x")
    let ops : List Operation := [.skipBlanks, .advance 3, .skipBlanks, .ask, .skipWord]
    (trail .trap ops p).map Place.offset = [0, 2, 5, 6, 6, 7] ∧
      (trail .trap ops p).Pairwise Place.ReadsTo ∧
      ∀ q ∈ trail .trap ops p, ∀ op : Operation,
        op.target? .trap q = (op.move? .trap q).map Place.offset := by
  intro p ops
  obtain ⟨hplaces, hcomplete, -⟩ :=
    operations_go_forward .trap (Utf8.ofString "  var x") ops
  exact ⟨by decide +kernel, (hcomplete.mpr (by decide +kernel)).2,
    fun q hq => (hplaces q hq).2.2.2.2 (by decide)⟩

/-- **Not every sequence is carried out and goes forward**, whatever becomes of
an overflow. A move by the greatest word breaks off, or goes back by one
byte. -/
theorem advance_overflows : ¬ ∃ o : Overflow, ∀ (bytes : Bytes) (ops : List Operation),
    (trail o ops (Place.start bytes)).length = ops.length + 1 ∧
      (trail o ops (Place.start bytes)).Pairwise fun p q => p.offset ≤ q.offset := by
  rintro ⟨o, h⟩
  obtain ⟨hlength, hforward⟩ := h [0x61, 0x62, 0x63] [.advance 1, .advance 0xFFFFFFFFFFFFFFFF]
  cases o with
  | trap => exact absurd hlength (by decide +kernel)
  | wrap => exact absurd hforward (by decide +kernel)

end DeclTags
