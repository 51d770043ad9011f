import DeclTags.Json.Numeral
import DeclTags.Proofs.Json.Reading

/-!
# Reading numbers as they were written

A string says itself where it ends. A number does not: it ends where
something stands that does not carry it on (`EndsNumber`). In front of that, a
natural number in decimal is read as it was written
(`reads_natural_toString`). Nothing that JSON forbids is in the way, since a
number in decimal starts with a zero only if it is zero.
-/

namespace DeclTags

open Utf8

namespace Json

/-! ## The reader -/

/-- A reader behind the blanks of a text. -/
def behindSpace {α : Type} (r : Reader α) : Reader α := fun text =>
  (r (skipSpace text)).map (·.widen (length_skipSpace_le text))

/-- A number without a sign, a fraction and an exponent. -/
def natural : Reader Nat :=
  behindSpace ((number .truncated).check fun x =>
    if x.fraction = [] ∧ x.exponent = 0 then .ok (digitsValue x.whole) else .error .unfit)

/-! ## Digits -/

/-- **No digit has to be left out** of a number in decimal: only zero starts
with a zero. -/
theorem eq_zero_of_head?_toDigits {n : Nat} (h : (Nat.toDigits 10 n).head? = some '0') :
    n = 0 := by
  induction n using Nat.strongRecOn with
  | _ n ih =>
    by_cases hn : n < 10
    · have hdigit : ∀ m < 10, Nat.digitChar m = '0' → m = 0 := by decide
      rw [Nat.toDigits_of_lt_base hn] at h
      exact hdigit n hn (Option.some.inj h)
    · rw [Nat.toDigits_of_base_le (by decide) (by omega),
        List.head?_append_of_ne_nil _ Nat.toDigits_ne_nil] at h
      have hzero := ih (n / 10) (by omega) h
      omega

/-- The byte of a digit. -/
def digitByte (c : Char) : UInt8 := UInt8.ofNat c.toNat

theorem toNat_digitByte {c : Char} (h : c.isDigit = true) :
    (digitByte c).toNat = c.toNat ∧ 0x30 ≤ c.toNat ∧ c.toNat ≤ 0x39 := by
  obtain ⟨hlow, hhigh⟩ := Char.isDigit_iff_toNat.mp h
  have hhigh : c.toNat ≤ 0x39 := hhigh
  exact ⟨toNat_ofNat_of_lt (by omega), hlow, hhigh⟩

theorem isDigit_digitByte {c : Char} (h : c.isDigit = true) : isDigit (digitByte c) = true := by
  obtain ⟨hc, hlow, hhigh⟩ := toNat_digitByte h
  rw [isDigit, Bool.and_eq_true, decide_eq_true_eq, decide_eq_true_eq, UInt8.le_iff_toNat_le,
    UInt8.le_iff_toNat_le, hc]
  exact ⟨hlow, hhigh⟩

/-- The bytes of digits. -/
theorem encode_digits {text : List Char} (h : ∀ c ∈ text, c.isDigit = true) :
    encode text = text.map digitByte := by
  induction text with
  | nil => rfl
  | cons c text ih =>
    obtain ⟨hc, htext⟩ := List.forall_mem_cons.mp h
    obtain ⟨-, -, hhigh⟩ := toNat_digitByte hc
    rw [encode, List.flatMap_cons, encodeChar_of_lt (by omega)]
    exact congrArg (_ :: ·) (ih htext)

/-- The value of digits is the number that they are written for. -/
theorem digitsValue_digits {text : List Char} (h : ∀ c ∈ text, c.isDigit = true) :
    digitsValue (text.map digitByte) = Nat.ofDigitChars 10 text 0 := by
  rw [digitsValue, Nat.ofDigitChars_eq_foldl, List.foldl_map]
  refine List.foldl_ext _ _ _ (fun n c hc => ?_)
  show n * 10 + ((digitByte c).toNat - 0x30) = 10 * n + (c.toNat - 0x30)
  rw [(toNat_digitByte (h c hc)).1, Nat.mul_comm]

/-! ## Numbers -/

/-- **A text does not carry a number on.** -/
def EndsNumber (rest : Bytes) : Prop :=
  ∀ b, rest.head? = some b → isDigit b = false ∧ b ≠ Ascii.dot ∧ b ≠ 0x45 ∧ b ≠ 0x65

section Number

variable {ds rest : Bytes} {atEnd : Flaw}

theorem reads_digits (hne : ds ≠ []) (hds : ∀ b ∈ ds, isDigit b = true) (hrest : EndsNumber rest) :
    Reads (digits atEnd) (ds ++ rest) ds rest := by
  have htake : rest.takeWhile isDigit = [] := by
    cases rest with
    | nil => rfl
    | cons b rest => exact List.takeWhile_cons_of_neg (by simp [(hrest b rfl).1])
  have hdrop : rest.dropWhile isDigit = rest := by
    cases rest with
    | nil => rfl
    | cons b rest => exact List.dropWhile_cons_of_neg (by simp [(hrest b rfl).1])
  obtain ⟨d, ds, rfl⟩ := List.exists_cons_of_ne_nil hne
  obtain ⟨hd, hds⟩ := List.forall_mem_cons.mp hds
  have hlt : rest.length < (d :: (ds ++ rest)).length := by
    rw [List.length_cons, List.length_append]
    omega
  refine ⟨hlt, ?_⟩
  show digits atEnd (d :: (ds ++ rest)) = _
  rw [digits, if_pos hd]
  simp only [List.takeWhile_append_of_pos hds, List.dropWhile_append_of_pos hds, htake, hdrop,
    List.append_nil]

/-- There is no exponent where the number ends. -/
theorem withExponent_of_endsNumber {text : Bytes} {x : Read Numeral text}
    (h : EndsNumber x.rest) : withExponent atEnd text x = .ok x := by
  unfold withExponent
  split
  · rfl
  · rename_i e rest hrest
    obtain ⟨-, -, hE, he⟩ := h e (by rw [hrest]; rfl)
    rw [if_neg (not_or.mpr ⟨hE, he⟩)]

/-- **A number is its digits**, if they do not start with a zero. -/
theorem reads_number (hne : ds ≠ []) (hds : ∀ b ∈ ds, isDigit b = true)
    (hzero : ds.head? = some Ascii.zero → ds.length = 1) (hrest : EndsNumber rest) :
    Reads (number atEnd) (ds ++ rest) { whole := ds } rest := by
  obtain ⟨hlt, hr⟩ : Reads (digits atEnd) (ds ++ rest) ds rest := reads_digits hne hds hrest
  refine ⟨hlt, ?_⟩
  rw [number, hr]
  show (if ds.head? = some Ascii.zero ∧ ds.length ≠ 1 then _ else _) = _
  rw [if_neg (fun h => h.2 (hzero h.1))]
  split
  · rename_i more hdot
    have hdot : rest = Ascii.dot :: more := hdot
    exact absurd rfl (hrest Ascii.dot (by rw [hdot]; rfl)).2.1
  · exact withExponent_of_endsNumber hrest

end Number

theorem Reads.behindSpace {α : Type} {r : Reader α} {text rest : Bytes} {a : α} {b : UInt8}
    (hb : isSpace b = false) (h : Reads r (b :: text) a rest) :
    Reads (Json.behindSpace r) (b :: text) a rest := by
  rw [← skipSpace_cons hb text] at h
  obtain ⟨hlt, hr⟩ := h
  refine ⟨Nat.lt_of_lt_of_le hlt (length_skipSpace_le _), ?_⟩
  rw [Json.behindSpace, hr]
  rfl

theorem isSpace_of_isDigit {b : UInt8} (h : isDigit b = true) : isSpace b = false := by
  simp only [isDigit, Bool.and_eq_true, decide_eq_true_eq, UInt8.le_iff_toNat_le] at h
  simp only [isSpace, Bool.or_eq_false_iff, beq_eq_false_iff_ne, ne_eq, ← UInt8.toNat_inj]
  simp only [UInt8.reduceToNat] at h ⊢
  omega

/-- The bytes of a number in decimal are digits, and there is one. -/
theorem ofString_toString (n : Nat) : ∃ b more, ofString (toString n) = b :: more ∧
    b :: more = (Nat.toDigits 10 n).map digitByte ∧ ∀ x ∈ b :: more, isDigit x = true := by
  have hdigits := isDigit_of_mem_toString (n := n)
  have hbytes : ofString (toString n) = (Nat.toDigits 10 n).map digitByte := by
    rw [ofString, encode_digits hdigits, toList_toString]
  rw [toList_toString] at hdigits
  have hne : (Nat.toDigits 10 n).map digitByte ≠ [] := by
    rw [ne_eq, List.map_eq_nil_iff]
    exact Nat.toDigits_ne_nil
  obtain ⟨b, more, hb⟩ := List.exists_cons_of_ne_nil hne
  refine ⟨b, more, hbytes.trans hb, hb.symm, ?_⟩
  rw [← hb]
  intro x hx
  obtain ⟨c, hc, rfl⟩ := List.mem_map.mp hx
  exact isDigit_digitByte (hdigits c hc)

/-- **A number is read as it was written.** -/
theorem reads_natural_toString (n : Nat) {rest : Bytes} (hrest : EndsNumber rest) :
    Reads natural (ofString (toString n) ++ rest) n rest := by
  obtain ⟨b, more, hbytes, hmap, hds⟩ := ofString_toString n
  have hdigits : ∀ c ∈ Nat.toDigits 10 n, c.isDigit = true :=
    toList_toString n ▸ isDigit_of_mem_toString
  have hzero : (b :: more).head? = some Ascii.zero → (b :: more).length = 1 := by
    rw [hmap, List.head?_map, Option.map_eq_some_iff]
    rintro ⟨c, hc, hbyte⟩
    obtain ⟨hnat, -⟩ := toNat_digitByte (hdigits c (List.mem_of_head? hc))
    have hchar : c = '0' := by
      rw [hbyte] at hnat
      exact Char.toNat_inj.mp hnat.symm
    rw [hchar] at hc
    rw [eq_zero_of_head?_toDigits hc]
    rfl
  have hnumber : Reads (number .truncated) ((b :: more) ++ rest) _ rest :=
    reads_number (List.cons_ne_nil _ _) hds hzero hrest
  have hvalue : digitsValue (b :: more) = n := by
    rw [hmap, digitsValue_digits hdigits, Nat.ofDigitChars_ten_toDigits]
  rw [hbytes]
  refine Reads.behindSpace (isSpace_of_isDigit (hds b List.mem_cons_self)) (hnumber.check ?_)
  rw [if_pos ⟨rfl, rfl⟩, hvalue]

end Json

end DeclTags
