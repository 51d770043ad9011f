import DeclTags.Proofs.Outline
import DeclTags.Proofs.Blanking

/-!
# Texts over several lines

A declaration may stretch over lines, and so may the blanks and the comments
in it. To speak of its parts one after another, a source is taken as a
**text**: bytes and line breaks in one list. A text is divided into lines
(`Text.lines`) the way a file is: a break ends a line, and the last line need
not be ended.

What a text declares is read off from left to right (`Text.declares`). Each
lemma below deals with one part of it, in front of a text that follows: a
line break or a blank is passed over, a mark or a word takes the outline one
step further, and a part that leaves the outline alone (`Text.Idle`) is
passed over as a whole. A word needs to know that it ends there, which is
what `Text.Stops` says of the text behind it.
-/

namespace DeclTags

open Utf8

/-- **A text**: bytes and line breaks, the latter written as `none`. -/
abbrev Text := List (Option UInt8)

namespace Text

/-- Some bytes, on one line. -/
def ofBytes (bytes : Bytes) : Text := bytes.map some

/-- The bytes before the first line break. -/
def firstLine : Text → Bytes
  | [] => []
  | none :: _ => []
  | some b :: rest => b :: firstLine rest

/-- **The lines of a text.** -/
def lines : Text → List Bytes
  | [] => []
  | none :: rest => [] :: lines rest
  | some b :: rest => (b :: firstLine rest) :: (lines rest).tail

/-- The number of line breaks in a text. -/
def breaks (t : Text) : Nat := t.count none

/-- No word goes on into this text. -/
def Stops (t : Text) : Prop := wordGoesOn t.firstLine = false

/-- Nothing in this text may be skipped or ends a line: there is no slash, no
quote and no NUL byte in it. -/
def Plain (t : Text) : Prop := ∀ b, some b ∈ t → b ≠ Ascii.slash ∧ b ≠ Ascii.quote ∧ b ≠ 0

/-- The lexemes of a text whose first line has the given number. -/
def numberedLexemes (n : Nat) (t : Text) : List (Nat × Lexeme) := numbered n t.lines

/-- **What a text declares** behind an outline, its first line having the
given number. -/
def declares (cyrillic : Bool) (n : Nat) (o : Outline) (t : Text) : List Tag :=
  (Outline.read cyrillic o (t.numberedLexemes n)).2

/-- The outline takes no notice of this text. -/
def Idle (o : Outline) (t : Text) : Prop :=
  ∀ l ∈ t.lines, ∀ x ∈ lexemes l, ∀ cyrillic n, o.next cyrillic n x = (o, none)

/-! ## Lines -/

@[simp] theorem firstLine_nil : firstLine [] = [] := rfl

@[simp] theorem firstLine_none_cons (t : Text) : firstLine (none :: t) = [] := rfl

theorem firstLine_ofBytes_append (bytes : Bytes) (t : Text) :
    firstLine (ofBytes bytes ++ t) = bytes ++ t.firstLine := by
  induction bytes with
  | nil => rfl
  | cons b bytes ih => exact congrArg (b :: ·) ih

theorem tail_lines_ofBytes_append (bytes : Bytes) (t : Text) :
    (lines (ofBytes bytes ++ t)).tail = t.lines.tail := by
  induction bytes with
  | nil => rfl
  | cons b bytes ih => exact ih

/-- **Induction over the lines of a text.** -/
theorem line_induction {P : Text → Prop} (last : ∀ bytes, P (ofBytes bytes))
    (line : ∀ bytes rest, P rest → P (ofBytes bytes ++ none :: rest)) (t : Text) : P t := by
  have general : ∀ (t : Text) (bytes : Bytes), P (ofBytes bytes ++ t) := by
    intro t
    induction t with
    | nil =>
      intro bytes
      rw [List.append_nil]
      exact last bytes
    | cons g rest ih =>
      intro bytes
      cases g with
      | none => exact line bytes rest (ih [])
      | some b =>
        have h := ih (bytes ++ [b])
        rw [ofBytes, List.map_append, List.append_assoc] at h
        exact h
  exact general t []

@[simp] theorem breaks_nil : breaks [] = 0 := rfl

theorem breaks_append (x y : Text) : breaks (x ++ y) = breaks x + breaks y :=
  List.count_append

@[simp] theorem breaks_ofBytes (bytes : Bytes) : breaks (ofBytes bytes) = 0 := by
  rw [breaks, List.count_eq_zero, ofBytes]
  simp

@[simp] theorem breaks_some_cons (b : UInt8) (t : Text) : breaks (some b :: t) = breaks t :=
  List.count_cons_of_ne (by simp)

@[simp] theorem breaks_none_cons (t : Text) : breaks (none :: t) = breaks t + 1 :=
  List.count_cons_self

theorem mem_of_mem_firstLine {t : Text} {b : UInt8} (h : b ∈ t.firstLine) : some b ∈ t := by
  induction t with
  | nil => exact absurd h List.not_mem_nil
  | cons g rest ih =>
    cases g with
    | none => exact absurd h List.not_mem_nil
    | some c =>
      rcases List.mem_cons.mp h with rfl | h
      · exact List.mem_cons_self
      · exact List.mem_cons_of_mem _ (ih h)

/-- The bytes of a line are bytes of the text. -/
theorem mem_of_mem_lines {t : Text} {l : Bytes} (hl : l ∈ t.lines) {b : UInt8} (hb : b ∈ l) :
    some b ∈ t := by
  induction t with
  | nil => exact absurd hl List.not_mem_nil
  | cons g rest ih =>
    cases g with
    | none =>
      rcases List.mem_cons.mp hl with rfl | hl
      · exact absurd hb List.not_mem_nil
      · exact List.mem_cons_of_mem _ (ih hl)
    | some c =>
      rcases List.mem_cons.mp hl with rfl | hl
      · exact mem_of_mem_firstLine hb
      · exact List.mem_cons_of_mem _ (ih (List.mem_of_mem_tail hl))

/-! ## Where words stop -/

@[simp] theorem stops_nil : Stops [] := rfl

@[simp] theorem stops_none_cons (t : Text) : Stops (none :: t) := rfl

theorem stops_some_cons {b : UInt8} (h : continuesWord b = false) (t : Text) :
    Stops (some b :: t) := wordGoesOn_of_not_continuesWord h t.firstLine

theorem Stops.append {x y : Text} (hx : x.Stops) (hy : y.Stops) : Stops (x ++ y) := by
  cases x using line_induction with
  | last bytes =>
    unfold Stops at hx
    rw [← List.append_nil (ofBytes bytes), firstLine_ofBytes_append, firstLine_nil,
      List.append_nil] at hx
    rw [Stops, firstLine_ofBytes_append]
    exact not_goesOn_append hx hy
  | line bytes rest =>
    unfold Stops at hx
    rw [firstLine_ofBytes_append] at hx
    rw [Stops, List.append_assoc, firstLine_ofBytes_append]
    exact hx

/-! ## Plain texts -/

@[simp] theorem plain_nil : Plain [] := fun _ h => absurd h List.not_mem_nil

theorem Plain.append {x y : Text} (hx : x.Plain) (hy : y.Plain) : Plain (x ++ y) := by
  intro b hb
  rcases List.mem_append.mp hb with hb | hb
  · exact hx b hb
  · exact hy b hb

theorem Plain.none_cons {t : Text} (h : t.Plain) : Plain (none :: t) := by
  intro b hb
  rcases List.mem_cons.mp hb with hb | hb
  · exact absurd hb (by simp)
  · exact h b hb

theorem Plain.some_cons {b : UInt8} {t : Text}
    (hb : b ≠ Ascii.slash ∧ b ≠ Ascii.quote ∧ b ≠ 0) (h : t.Plain) : Plain (some b :: t) := by
  intro c hc
  rcases List.mem_cons.mp hc with hc | hc
  · rw [Option.some.inj hc]
    exact hb
  · exact h c hc

theorem plain_flatMap {α : Type} {text : α → Text} (h : ∀ x, (text x).Plain) (xs : List α) :
    Plain (xs.flatMap text) := by
  intro b hb
  obtain ⟨x, -, hx⟩ := List.mem_flatMap.mp hb
  exact h x b hx

/-- Bytes of words are plain. -/
theorem plain_ofBytes {bytes : Bytes} (h : ∀ b ∈ bytes, continuesWord b = true) :
    Plain (ofBytes bytes) := by
  intro b hb
  obtain ⟨c, hc, he⟩ := List.mem_map.mp hb
  obtain rfl := Option.some.inj he
  exact ⟨Rules.ne_of_continuesWord (h c hc) (by decide),
    Rules.ne_of_continuesWord (h c hc) (by decide), Rules.ne_of_continuesWord (h c hc) (by decide)⟩

/-! ## The lexemes of a text -/

theorem numberedLexemes_eq (n : Nat) (t : Text) :
    t.numberedLexemes n
      = (lexemes t.firstLine).map (n, ·) ++ numbered (n + 1) t.lines.tail := by
  match t with
  | [] =>
    rw [firstLine_nil, lexemes_nil]
    rfl
  | none :: rest => rfl
  | some b :: rest => rfl

/-- Bytes at the head of a text may be read for themselves if their lexemes
are those of the line. -/
theorem numberedLexemes_ofBytes_append (n : Nat) {bytes : Bytes} {t : Text} (xs : List Lexeme)
    (h : lexemes (bytes ++ t.firstLine) = xs ++ lexemes t.firstLine) :
    numberedLexemes n (ofBytes bytes ++ t) = xs.map (n, ·) ++ t.numberedLexemes n := by
  rw [numberedLexemes_eq, numberedLexemes_eq, firstLine_ofBytes_append,
    tail_lines_ofBytes_append, h, List.map_append, List.append_assoc]

theorem numberedLexemes_none_cons (n : Nat) (t : Text) :
    numberedLexemes n (none :: t) = t.numberedLexemes (n + 1) := by
  rw [numberedLexemes_eq, firstLine_none_cons, lexemes_nil]
  rfl

/-- **A text is read part by part**, cut where no word goes on. -/
theorem numberedLexemes_append (n : Nat) (x : Text) {y : Text} (hy : y.Stops) :
    numberedLexemes n (x ++ y) = x.numberedLexemes n ++ y.numberedLexemes (n + x.breaks) := by
  have bytes_append {y : Text} (n : Nat) (bytes : Bytes) (hy : y.Stops) :
      numberedLexemes n (ofBytes bytes ++ y)
        = (lexemes bytes).map (n, ·) ++ y.numberedLexemes n :=
    numberedLexemes_ofBytes_append n _ (lexemes_append bytes hy)
  induction x using line_induction generalizing n with
  | last bytes =>
    have hx := bytes_append n bytes stops_nil
    rw [List.append_nil] at hx
    rw [bytes_append n bytes hy, hx, breaks_ofBytes, List.append_assoc]
    rfl
  | line bytes rest ih =>
    rw [List.append_assoc, List.cons_append, bytes_append n bytes (stops_none_cons _),
      bytes_append n bytes (stops_none_cons _), numberedLexemes_none_cons,
      numberedLexemes_none_cons, ih, breaks_append, breaks_ofBytes, breaks_none_cons,
      List.append_assoc, Nat.zero_add, Nat.add_assoc, Nat.add_comm 1]

/-! ## What parts of a text declare -/

section Declares

variable {cyrillic : Bool} {n : Nat} {o : Outline}

@[simp] theorem declares_nil : declares cyrillic n o [] = [] := rfl

@[simp] theorem declares_none_cons (t : Text) :
    declares cyrillic n o (none :: t) = declares cyrillic (n + 1) o t := by
  rw [declares, declares, numberedLexemes_none_cons]

/-- Bytes that hold no lexeme declare nothing. -/
theorem declares_of_no_lexeme (bytes : Bytes) {t : Text}
    (h : lexemes (bytes ++ t.firstLine) = lexemes t.firstLine) :
    declares cyrillic n o (ofBytes bytes ++ t) = declares cyrillic n o t := by
  have hlex : numberedLexemes n (ofBytes bytes ++ t) = [] ++ t.numberedLexemes n :=
    numberedLexemes_ofBytes_append n [] h
  rw [declares, declares, hlex, List.nil_append]

/-- Bytes that are a lexeme declare what it does. -/
theorem declares_of_lexeme (bytes : Bytes) {t : Text} {x : Lexeme}
    (h : lexemes (bytes ++ t.firstLine) = x :: lexemes t.firstLine) :
    declares cyrillic n o (ofBytes bytes ++ t)
      = (o.next cyrillic n x).2.toList ++ declares cyrillic n (o.next cyrillic n x).1 t := by
  have hlex : numberedLexemes n (ofBytes bytes ++ t) = (n, x) :: t.numberedLexemes n :=
    numberedLexemes_ofBytes_append n [x] h
  rw [declares, declares, hlex, Outline.read_cons]

theorem declares_blankByte {b : UInt8} (h : isBlankByte b = true) (t : Text) :
    declares cyrillic n o (some b :: t) = declares cyrillic n o t :=
  declares_of_no_lexeme [b] (lexemes_of_isBlankByte h t.firstLine)

theorem declares_wideBlank {c : Char} (h : isWideBlank c = true) (t : Text) :
    declares cyrillic n o (ofBytes (String.utf8EncodeChar c) ++ t) = declares cyrillic n o t :=
  declares_of_no_lexeme _ (lexemes_of_isWideBlank h t.firstLine)

theorem declares_mark {b : UInt8} (hb : isBlankByte b = false) (hc : continuesWord b = false)
    (t : Text) : declares cyrillic n o (some b :: t) = declares cyrillic n (o.afterMark b) t :=
  declares_of_lexeme [b] (lexemes_of_mark hb hc t.firstLine)

theorem declares_word {w : Bytes} (hne : w ≠ []) (hw : IsWord w) {t : Text} (ht : t.Stops) :
    declares cyrillic n o (ofBytes w ++ t)
      = (o.afterWord cyrillic n w).2.toList
        ++ declares cyrillic n (o.afterWord cyrillic n w).1 t :=
  declares_of_lexeme w (lexemes_of_isWord hne hw ht)

/-- **A text of which the outline takes no notice** is passed over. -/
theorem declares_idle {x y : Text} (hx : x.Idle o) (hy : y.Stops) :
    declares cyrillic n o (x ++ y) = declares cyrillic (n + x.breaks) o y := by
  have idle : ∀ xs : List (Nat × Lexeme),
      (∀ m x, (m, x) ∈ xs → o.next cyrillic m x = (o, none)) →
        Outline.read cyrillic o xs = (o, []) := by
    intro xs
    induction xs with
    | nil => exact fun _ => rfl
    | cons x xs ih =>
      intro h
      obtain ⟨m, x⟩ := x
      rw [Outline.read_cons, h m x List.mem_cons_self,
        ih (fun m y hy => h m y (List.mem_cons_of_mem _ hy))]
      rfl
  have hread := idle (x.numberedLexemes n) (fun m z hz => by
    obtain ⟨-, l, hl, hzl⟩ := of_mem_numbered hz
    exact hx l hl z hzl cyrillic m)
  rw [declares, declares, numberedLexemes_append n x hy, Outline.read_append, hread]
  rfl

end Declares

/-! ## Scanning a plain text -/

/-- Nothing in a plain text is blanked. -/
theorem blanked_lines (rules : Rules) {t : Text} (h : t.Plain) :
    blanked rules t.lines = t.lines := by
  have hlines : ∀ l ∈ t.lines, ∀ b ∈ l, b ≠ Ascii.slash ∧ b ≠ Ascii.quote ∧ b ≠ 0 :=
    fun l hl b hb => h b (mem_of_mem_lines hl hb)
  unfold blanked
  generalize t.lines = ls at hlines
  induction ls with
  | nil => rfl
  | cons l ls ih =>
    have hl := hlines l List.mem_cons_self
    have hcut : cut l = l := cut_of_not_mem (fun h0 => (hl 0 h0).2.2 rfl)
    have hblank := blanking_code_append rules
      (fun b hb => ⟨(hl b hb).1, (hl b hb).2.1⟩ : ∀ b ∈ l, _) []
    rw [List.append_nil, blanking_nil, List.append_nil] at hblank
    rw [blankLines, hcut, hblank, ih (fun l' hl' => hlines l' (List.mem_cons_of_mem l hl'))]

end Text

end DeclTags
