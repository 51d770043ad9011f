import DeclTags.Proofs.Alphabet.Word
import DeclTags.Proofs.Place.Offset
import DeclTags.Proofs.Utf8.LastCharacter

/-!
# Where words may start

Whether a word may start at a place is asked of the bytes before it, and the
question is decided by decoding four of them. That is as good as decoding
all of them (`previous?_eq`), because a window of four bytes shows the last
character of a byte string.

Two facts follow, and the scan of a line rests on both. Behind a blank or a
mark of punctuation a word may start, whatever stood before. Inside a word
that was entered at such a place no word starts
(`atWordStart_forward_of_isWord`): a blank that ended there would have to
start inside the word, where the word does not go on, or before it, where a
character has already ended.
-/

namespace DeclTags

open Utf8

namespace Place

variable {p : Place}

/-- **Looking back four bytes is as good as decoding everything read.** -/
theorem previous?_eq (p : Place) : p.previous? = lastChar? p.before.reverse := by
  show lastChar? (p.before.take 4).reverse = _
  by_cases h : p.before.length ≤ 4
  · rw [List.take_of_length_le h]
  · have hw : 4 ≤ (p.before.take 4).reverse.length := by
      rw [List.length_reverse, List.length_take]
      omega
    rw [← lastChar?_append_window (p.before.drop 4).reverse hw, ← List.reverse_append,
      List.take_append_drop]

/-- **A word may start** at the start of the line, behind a byte that carries
no word on, and behind a blank outside ASCII. -/
theorem atWordStart_iff : p.atWordStart = true ↔ p.before = [] ∨
    (∃ b, p.before.head? = some b ∧ continuesWord b = false) ∨
      ∃ c, p.previous? = some c ∧ isWideBlank c = true := by
  unfold atWordStart
  split
  · rename_i hb
    exact ⟨fun _ => .inl hb, fun _ => rfl⟩
  · rename_i b more hb
    -- a blank that ends here ends in the byte here, which is then outside ASCII
    have hge {c : Char} (hc : p.previous? = some c) (hw : isWideBlank c = true) : 0x80 ≤ b := by
      rw [previous?_eq, hb] at hc
      obtain ⟨start, hstart⟩ := lastChar?_eq_some hc
      have hlast : (start ++ String.utf8EncodeChar c).getLast? = some b := by
        rw [← hstart, List.getLast?_reverse]
        rfl
      rw [List.getLast?_append, List.getLast?_eq_some_getLast (encodeChar_ne_nil c)] at hlast
      rw [← Option.some.inj hlast]
      exact le_of_mem_encodeChar_of_isWideBlank hw _ (List.getLast_mem _)
    rw [hb, Bool.or_eq_true, Bool.not_eq_true', Bool.and_eq_true, decide_eq_true_eq,
      Option.any_eq_true]
    constructor
    · rintro (hword | ⟨-, hblank⟩)
      · exact .inr (.inl ⟨b, rfl, hword⟩)
      · exact .inr (.inr hblank)
    · rintro (hnil | ⟨_, ⟨⟩, hword⟩ | ⟨c, hc, hw⟩)
      · exact absurd hnil (List.cons_ne_nil b more)
      · exact .inl hword
      · exact .inr ⟨hge hc hw, c, hc, hw⟩

/-- Where a word may start, no character is left unfinished. -/
theorem endsWhole_of_atWordStart (h : p.atWordStart = true) : EndsWhole p.before.reverse := by
  unfold atWordStart at h
  split at h
  · rename_i hb
    rw [hb]
    exact endsWhole_nil
  · rename_i b more hb
    rcases Bool.or_eq_true _ _ |>.mp h with h | h
    · have hlt : b < 0x80 := by
        refine UInt8.not_le.mp (fun hle => ?_)
        rw [continuesWord_of_le hle] at h
        exact absurd h Bool.false_ne_true
      have hn : b.toNat < 0x80 := UInt8.lt_iff_toNat_lt.mp hlt
      have hc : (Char.ofNat b.toNat).toNat = b.toNat :=
        toNat_ofNat_of_isValidChar (.inl (by omega))
      have he : String.utf8EncodeChar (Char.ofNat b.toNat) = [b] := by
        rw [encodeChar_of_lt (by omega), hc, UInt8.ofNat_toNat]
      rw [hb, List.reverse_cons, ← he]
      exact endsWhole_append_encodeChar _ _
    · obtain ⟨c, hc, -⟩ := Option.any_eq_true _ _ |>.mp (Bool.and_eq_true _ _ |>.mp h).2
      intro s hs
      rw [previous?_eq, lastChar?, hs] at hc
      rw [show s.char? = some c from hc]
      rfl

/-- Behind a byte that carries no word on, a word may start. -/
theorem atWordStart_forward_of_not_continuesWord {b : UInt8} {more : Bytes}
    (ha : p.after = b :: more) (hb : continuesWord b = false) :
    (p.forward 1).atWordStart = true := by
  rw [atWordStart_iff, before_forward, ha]
  exact .inr (.inl ⟨b, rfl, hb⟩)

/-- Behind a blank outside ASCII, a word may start. -/
theorem atWordStart_forward_of_isWideBlank {c : Char} {more : Bytes}
    (ha : p.after = String.utf8EncodeChar c ++ more) (hc : isWideBlank c = true) :
    (p.forward (String.utf8EncodeChar c).length).atWordStart = true := by
  have hb : (p.forward (String.utf8EncodeChar c).length).before
      = (String.utf8EncodeChar c).reverse ++ p.before := by
    rw [before_forward, ha, List.take_left]
  have hp : (p.forward (String.utf8EncodeChar c).length).previous? = some c := by
    rw [previous?_eq, hb, List.reverse_append, List.reverse_reverse, lastChar?_append_encodeChar]
  exact atWordStart_iff.mpr (.inr (.inr ⟨c, hp, hc⟩))

/-- **Inside a word no word starts**, if the word was entered where one may
start. -/
theorem atWordStart_forward_of_isWord {u v more : Bytes} (hp : p.atWordStart = true)
    (ha : p.after = u ++ more) (hu : u ≠ []) (hw : IsWord (u ++ v)) :
    (p.forward u.length).atWordStart = false := by
  have hb : (p.forward u.length).before = u.reverse ++ p.before := by
    rw [before_forward, ha, List.take_left]
  have hlast : (p.forward u.length).previous? = lastChar? u := by
    rw [previous?_eq, hb, List.reverse_append, List.reverse_reverse,
      lastChar?_append hu (segments_append_of_endsWhole u (endsWhole_of_atWordStart hp))]
  have hblank : (lastChar? u).any isWideBlank = false := by
    cases hc : lastChar? u with
    | none => rfl
    | some c =>
      obtain ⟨start, rfl⟩ := lastChar?_eq_some hc
      cases hwb : isWideBlank c with
      | false => simp [hwb]
      | true =>
        -- a blank that ends here would start where the word goes on
        rw [List.append_assoc] at hw
        have hrest := hw.of_append
        obtain ⟨b, tail, he, -⟩ := encodeChar_cons c
        have hgo := wordGoesOn_of_isWideBlank hwb v
        rw [he, List.cons_append] at hrest hgo
        rw [(isWord_cons_iff.mp hrest).1] at hgo
        exact Bool.noConfusion hgo
  unfold atWordStart
  rw [hlast, hblank, hb]
  cases hr : u.reverse with
  | nil => exact absurd (List.reverse_eq_nil_iff.mp hr) hu
  | cons x xs =>
    have hx : x ∈ u ++ v := by
      refine List.mem_append_left v (List.mem_reverse.mp ?_)
      rw [hr]
      exact List.mem_cons_self
    show (!continuesWord x || (_ && false)) = false
    rw [hw.continuesWord_of_mem x hx, Bool.and_false]
    rfl

end Place

end DeclTags
