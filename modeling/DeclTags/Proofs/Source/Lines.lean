import DeclTags.Input
import DeclTags.Proofs.Scan.Leads
import Mathlib.Data.List.Basic

/-!
# The lines of a source

Lines are taken off a source one at a time, from whatever has arrived so far.
What they are can be said without that: all that arrives before the first
read that fails is the **content** of the source, the content is divided at
its line feeds, and each piece that a line feed ends is a line. The last
piece, which none ends, is a line only if the content is known to be whole
and the piece is not empty.

So neither the division of the content into arrivals nor an interruption can
be seen in the lines, and nothing that comes behind a failure is looked at.
The proof follows the intake from one line to the next. What it needs to know
of a read is in `Fetch.Takes`: whether a line feed was found, and what is
left of the content behind it.
-/

namespace DeclTags

/-! ## The lines that a source should have -/

/-- Why a read failed, if it did. -/
def Arrival.cause? : Arrival → Option String
  | .failure cause => some cause
  | _ => none

namespace Source

/-- Why the first read that failed did so. -/
def failure? (source : Source) : Option String := source.findSome? Arrival.cause?

/-- **The content of a source**: all bytes that arrive before the first read
that fails. -/
def content : Source → Bytes
  | [] => []
  | .data bytes :: later => bytes ++ content later
  | .interruption :: later => content later
  | .failure _ :: _ => []

end Source

/-- A piece without a carriage return at its end. -/
def withoutReturn (l : Bytes) : Bytes :=
  if l.getLast? = some Ascii.carriageReturn then l.dropLast else l

/-- The pieces of a content as lines: those that a line feed ends, without a
carriage return, and the last one if it is not empty and the content is
whole. -/
def pieces (whole : Bool) (content : Bytes) : List Bytes :=
  let parts := content.splitOn Ascii.lineFeed
  parts.dropLast.map withoutReturn ++
    parts.getLast?.toList.filter fun l => whole && !l.isEmpty

/-- Some lines, the first of them without a byte order mark. -/
def unmarked : List Bytes → List Bytes
  | (0xEF :: 0xBB :: 0xBF :: l) :: rest => l :: rest
  | lines => lines

/-- **The lines of a source.** -/
def Source.lines (source : Source) : List Bytes :=
  unmarked (pieces source.failure?.isNone source.content)

/-! ## The pieces of a content -/

theorem pieces_of_not_mem {content : Bytes} (whole : Bool) (h : Ascii.lineFeed ∉ content) :
    pieces whole content = [content].filter fun l => whole && !l.isEmpty := by
  rw [pieces, List.splitOn_eq_singleton h]
  rfl

/-- **A piece that a line feed ends**, in front of any others. -/
theorem pieces_append {piece : Bytes} (whole : Bool) (h : Ascii.lineFeed ∉ piece)
    (rest : Bytes) :
    pieces whole (piece ++ Ascii.lineFeed :: rest) = withoutReturn piece :: pieces whole rest := by
  have hne : rest.splitOn Ascii.lineFeed ≠ [] := List.splitOn_ne_nil _ _
  rw [pieces, pieces, List.splitOn_append_cons_self_of_not_mem h, List.dropLast_cons_of_ne_nil hne,
    List.getLast?_cons_of_ne_nil hne]
  rfl

theorem withoutEnd_append_lineFeed (piece : Bytes) :
    withoutEnd (piece ++ [Ascii.lineFeed]) = withoutReturn piece := by
  rw [withoutEnd, if_pos List.getLast?_concat, List.dropLast_concat]
  rfl

theorem withoutEnd_of_not_mem {l : Bytes} (h : Ascii.lineFeed ∉ l) : withoutEnd l = l := by
  rw [withoutEnd, if_neg (fun hl => h (List.mem_of_getLast? hl))]

theorem unmarked_cons (l : Bytes) (rest : List Bytes) :
    unmarked (l :: rest) = withoutMark l :: rest := by
  unfold unmarked withoutMark
  split
  · rename_i h
    obtain ⟨rfl, rfl⟩ := List.cons.inj h
    rfl
  · rename_i h
    rw [if_neg]
    intro hmark
    obtain ⟨more, rfl⟩ := List.isPrefixOf_iff_prefix.mp hmark
    exact h more rest rfl

/-! ## What one read takes -/

namespace Fetch

/-- **What a read takes off a content**, given why the source fails behind
it, if it does. -/
inductive Takes (bytes : Bytes) (failure? : Option String) : Fetch → Prop
  /-- The bytes up to the first line feed, and the rest stays. -/
  | line {piece pending : Bytes} {later : Source} (plain : Ascii.lineFeed ∉ piece)
      (divides : bytes = piece ++ Ascii.lineFeed :: (pending ++ later.content))
      (fails : later.failure? = failure?) :
      Takes bytes failure? (.line (piece ++ [Ascii.lineFeed]) pending later)
  /-- All of it, where it is whole and no line feed is left. -/
  | finished (plain : Ascii.lineFeed ∉ bytes) (fails : failure? = none) :
      Takes bytes failure? (.finished bytes)
  /-- Nothing, where no line feed is left before the read that fails. -/
  | failed {cause : String} (plain : Ascii.lineFeed ∉ bytes) (fails : failure? = some cause) :
      Takes bytes failure? (.failed cause)

variable {bytes l rest : Bytes} {b : UInt8} {failure? : Option String}

/-- What stands before a cut holds no line feed. -/
theorem not_mem_fst_cut (bytes : Bytes) : Ascii.lineFeed ∉ (cut bytes).1 := by
  intro h
  have hne := List.all_eq_true.mp List.all_takeWhile _ h
  exact of_decide_eq_true hne rfl

/-- A cut is at the first line feed. -/
theorem of_cut_cons (h : cut bytes = (l, b :: rest)) :
    Ascii.lineFeed ∉ l ∧ bytes = l ++ Ascii.lineFeed :: rest := by
  have hplain := not_mem_fst_cut bytes
  have happend := cut_append bytes
  have hhead := List.head?_dropWhile_not (· ≠ Ascii.lineFeed) bytes
  rw [h] at hplain happend
  rw [show bytes.dropWhile (· ≠ Ascii.lineFeed) = b :: rest from congrArg Prod.snd h] at hhead
  have hb : b = Ascii.lineFeed := by simpa using hhead
  exact ⟨hplain, by rw [← happend, hb]⟩

theorem of_cut_nil (h : cut bytes = (l, [])) : Ascii.lineFeed ∉ bytes ∧ bytes = l := by
  have hplain := not_mem_fst_cut bytes
  have happend := cut_append bytes
  rw [h] at hplain happend
  rw [List.append_nil] at happend
  exact ⟨happend ▸ hplain, happend.symm⟩

/-- Bytes without a line feed, in front of a content. -/
theorem Takes.after {e : Fetch} (hl : Ascii.lineFeed ∉ l) (h : Takes bytes failure? e) :
    Takes (l ++ bytes) failure? (e.after l) := by
  have plain {x : Bytes} (hx : Ascii.lineFeed ∉ x) : Ascii.lineFeed ∉ l ++ x := fun hmem =>
    (List.mem_append.mp hmem).elim hl hx
  cases h with
  | @line piece pending later hpiece divides fails =>
    rw [Fetch.after, ← List.append_assoc]
    exact .line (plain hpiece) (by rw [divides, List.append_assoc]) fails
  | finished hbytes fails => exact .finished (plain hbytes) fails
  | failed hbytes fails => exact .failed (plain hbytes) fails

/-- **A read takes off what is at hand and what arrives**, whatever the
arrivals. -/
theorem takes_read (pending : Bytes) (source : Source) :
    Takes (pending ++ source.content) source.failure? (read pending source) := by
  fun_induction read pending source with
  | case1 pending l b rest h =>
    obtain ⟨hplain, rfl⟩ := of_cut_cons h
    exact .line hplain (by rw [Source.content, List.append_nil, List.append_nil]) rfl
  | case2 pending l h =>
    obtain ⟨hplain, rfl⟩ := of_cut_nil h
    rw [Source.content, List.append_nil]
    exact .finished hplain rfl
  | case3 pending arrival later l b rest h =>
    obtain ⟨hplain, rfl⟩ := of_cut_cons h
    exact .line hplain (by rw [List.append_assoc]; rfl) rfl
  | case4 pending later l h bytes ih =>
    obtain ⟨hplain, rfl⟩ := of_cut_nil h
    exact ih.after hplain
  | case5 pending later l h ih =>
    obtain ⟨hplain, rfl⟩ := of_cut_nil h
    exact ih.after hplain
  | case6 pending later l h cause =>
    obtain ⟨hplain, rfl⟩ := of_cut_nil h
    rw [Source.content, List.append_nil]
    exact .failed hplain rfl

end Fetch

/-! ## From line to line -/

namespace Intake

/-- An intake that has not come to an end. -/
structure Open (i : Intake) : Prop where
  /-- There may be more lines. -/
  ended_eq : i.ended = false
  /-- No read has failed. -/
  failure_eq : i.failure? = none

/-- **The lines that are left**, told from the content that is left. -/
def left (i : Intake) : List Bytes :=
  let rest := pieces i.source.failure?.isNone (i.pending ++ i.source.content)
  if i.started then rest else unmarked rest

/-- What taking a line comes to, from the lines that are left. -/
inductive Takes (i : Intake) : List Bytes → Option Bytes × Intake → Prop
  /-- The first of them is taken. -/
  | line {l : Bytes} {j : Intake} (isOpen : j.Open)
      (fails : j.source.failure? = i.source.failure?) :
      Takes i (l :: j.left) (some l, j)
  /-- There are none, and it is known why. -/
  | nothing {j : Intake} (ended : j.ended = true) (fails : j.failure? = i.source.failure?) :
      Takes i [] (none, j)

/-- A piece is handed out as the first of the lines that are left. -/
theorem left_eq_cons {i : Intake} {l : Bytes} {rest : List Bytes}
    (h : pieces i.source.failure?.isNone (i.pending ++ i.source.content)
      = withoutEnd l :: rest) : i.left = i.handOut l :: rest := by
  rw [left, h, handOut]
  cases i.started with
  | true => rfl
  | false => exact unmarked_cons _ _

theorem left_eq_nil {i : Intake}
    (h : pieces i.source.failure?.isNone (i.pending ++ i.source.content) = []) : i.left = [] := by
  rw [left, h]
  cases i.started <;> rfl

/-- **Taking a line** takes the first of the lines that are left. -/
theorem takes_next {i : Intake} (h : i.Open) : Takes i i.left i.next := by
  have hread := Fetch.takes_read i.pending i.source
  unfold next
  rw [if_neg (by rw [h.ended_eq]; exact Bool.false_ne_true)]
  cases hfetch : Fetch.read i.pending i.source with
  | line l pending later =>
    rw [hfetch] at hread
    cases hread with
    | @line piece _ _ plain divides fails =>
      have hleft : i.left = i.handOut (piece ++ [Ascii.lineFeed])
          :: pieces later.failure?.isNone (pending ++ later.content) :=
        left_eq_cons (by rw [divides, pieces_append _ plain, withoutEnd_append_lineFeed, fails])
      rw [hleft]
      exact .line (j := { i with pending := pending, source := later, started := true })
        ⟨h.ended_eq, h.failure_eq⟩ fails
  | finished rest =>
    rw [hfetch] at hread
    generalize hbytes : i.pending ++ i.source.content = bytes at hread
    cases hread with
    | finished plain fails =>
      have hpieces := pieces_of_not_mem true plain
      cases rest with
      | nil =>
        rw [left_eq_nil (by rw [hbytes, fails]; exact hpieces)]
        exact .nothing rfl (h.failure_eq.trans fails.symm)
      | cons b l =>
        have hleft : i.left = [i.handOut (b :: l)] := left_eq_cons (by
          rw [hbytes, fails, withoutEnd_of_not_mem plain]
          exact hpieces)
        rw [hleft]
        exact .line (j := { i with pending := [], source := [], started := true })
          ⟨h.ended_eq, h.failure_eq⟩ fails.symm
  | failed cause =>
    rw [hfetch] at hread
    cases hread with
    | failed plain fails =>
      rw [left_eq_nil (by rw [pieces_of_not_mem _ plain, fails]; rfl)]
      exact .nothing rfl fails.symm

/-- Behind the end there is nothing, and nothing changes. -/
theorem takeLines_of_ended {i : Intake} (h : i.ended = true) (n : Nat) :
    i.takeLines n = (List.replicate n none, i) := by
  induction n with
  | zero => rfl
  | succ n ih =>
    have hnext : i.next = (none, i) := by rw [next, if_pos h]
    rw [takeLines, hnext]
    dsimp only
    rw [ih]
    rfl

/-- **Any number of lines**: those that are left, and none behind them. -/
theorem takeLines_eq {i : Intake} (h : i.Open) (n : Nat) :
    (i.takeLines n).1 = (i.left.map some ++ List.replicate n none).take n ∧
      (i.left.length < n → (i.takeLines n).2.failure? = i.source.failure?) := by
  induction n generalizing i with
  | zero => exact ⟨rfl, fun hn => absurd hn (Nat.not_lt_zero _)⟩
  | succ n ih =>
    have htakes := takes_next h
    rw [takeLines]
    generalize i.next = e at htakes
    generalize i.left = rest at htakes
    cases htakes with
    | @line l j isOpen fails =>
      obtain ⟨hlines, hfails⟩ := ih isOpen
      refine ⟨?_, fun hn => (hfails (Nat.lt_of_succ_lt_succ hn)).trans fails⟩
      have hnone : (j.left.map some ++ List.replicate (n + 1) none).take n
          = (j.left.map some ++ List.replicate n none).take n := by
        rw [List.replicate_succ', ← List.append_assoc, List.take_append_of_le_length]
        rw [List.length_append, List.length_replicate]
        exact Nat.le_add_left _ _
      dsimp only
      rw [hlines, ← hnone]
      rfl
    | @nothing j ended fails =>
      dsimp only
      rw [takeLines_of_ended ended]
      refine ⟨?_, fun _ => fails⟩
      rw [List.map_nil, List.nil_append, List.take_replicate, Nat.min_self]
      rfl

/-- **All lines**: those that are left, and why there are no more. -/
theorem lines_eq {i : Intake} (h : i.Open) :
    i.lines.1 = i.left ∧ i.lines.2.failure? = i.source.failure? := by
  generalize hrest : i.left = rest
  induction rest generalizing i with
  | nil =>
    have htakes := takes_next h
    rw [hrest] at htakes
    rw [lines]
    split
    · rename_i j hnext
      rw [hnext] at htakes
      cases htakes with
      | nothing ended fails => exact ⟨rfl, fails⟩
    · rename_i l j hnext
      rw [hnext] at htakes
      cases htakes
  | cons l rest ih =>
    have htakes := takes_next h
    rw [hrest] at htakes
    rw [lines]
    split
    · rename_i j hnext
      rw [hnext] at htakes
      cases htakes
    · rename_i l' j hnext
      rw [hnext] at htakes
      generalize hj : l :: rest = ls at htakes
      cases htakes with
      | line isOpen fails =>
        obtain ⟨rfl, rfl⟩ := List.cons.inj hj
        obtain ⟨hlines, hfails⟩ := ih isOpen rfl
        exact ⟨congrArg (_ :: ·) hlines, hfails.trans fails⟩

end Intake

/-! ## Whole sources -/

namespace Source

variable {source : Source}

theorem open_intake (source : Source) : Intake.Open { source } := ⟨rfl, rfl⟩

theorem left_intake (source : Source) : Intake.left { source } = source.lines := rfl

/-- A source fails if some read of it does. -/
theorem exists_failure?_iff :
    (∃ cause, source.failure? = some cause) ↔ ∃ cause, Arrival.failure cause ∈ source := by
  rw [← Option.isSome_iff_exists, failure?, List.findSome?_isSome_iff]
  constructor
  · rintro ⟨arrival, hmem, hcause⟩
    match arrival with
    | .failure cause => exact ⟨cause, hmem⟩
  · rintro ⟨cause, hmem⟩
    exact ⟨_, hmem, rfl⟩

/-- **The tags of a source** are those of its lines, unless a read fails. -/
theorem tags_eq (rules : Rules) (source : Source) :
    source.tags rules
      = match source.failure? with
        | some cause => .error cause
        | none => .ok (DeclTags.tags rules source.lines) := by
  obtain ⟨hlines, hfails⟩ := Intake.lines_eq (open_intake source)
  rw [left_intake] at hlines
  have hscan : source.scan rules
      = ⟨(DeclTags.scan rules source.lines).2.flatten, (DeclTags.scan rules source.lines).1,
        source.failure?⟩ := by
    rw [scan, ← hlines, ← hfails]
  rw [tags, hscan]
  dsimp only
  cases source.failure? with
  | some cause => rfl
  | none => exact congrArg Except.ok (tags_eq_tagsOf_scan rules source.lines).symm

end Source

/-- **Only the content of a source and its first failure can be seen.** The
lines of the content come one after another and nothing behind them, however
often one is asked for, and then it is known whether a read failed, and why.
If one did, the source has no tags: there is nothing to list, and the cause
is reported with the name of the input. -/
theorem source_read_or_failed (source : Source) :
    (∀ n, (Intake.takeLines { source } n).1
        = (source.lines.map some ++ List.replicate n none).take n) ∧
      (∀ n, source.lines.length < n →
        (Intake.takeLines { source } n).2.failure? = source.failure?) ∧
      ((∃ cause, source.failure? = some cause) ↔ ∃ cause, Arrival.failure cause ∈ source) ∧
      (∀ rules cause, source.tags rules = .error cause ↔ source.failure? = some cause) ∧
      ∀ (task : Task) sink path cause, source.failure? = some cause →
        (task.run sink path source).result = .error (.input path cause) ∧
          (task.run sink path source).written = [] := by
  have hopen := Source.open_intake source
  refine ⟨fun n => (Intake.takeLines_eq hopen n).1, fun n => (Intake.takeLines_eq hopen n).2,
    Source.exists_failure?_iff, fun rules cause => ?_, fun task sink path cause h => ?_⟩
  · rw [Source.tags_eq]
    cases source.failure? with
    | some cause' => simp
    | none => simp
  · have htags : source.tags task.rules = .error cause := by rw [Source.tags_eq, h]
    rw [Task.run, htags]
    exact ⟨rfl, rfl⟩

/-- A line in two arrivals, and a failure in the middle of the next one. -/
theorem source_read_or_failed_in_line :
    let source : Source := [.data (Utf8.ofString "Var a"), .interruption,
      .data (Utf8.ofString ";\r\nVar"), .failure "boom", .data (Utf8.ofString " b;\n"),
      .failure "again"]
    source.failure? = some "boom" ∧ source.lines = [Utf8.ofString "Var a;"] ∧
      (Intake.takeLines { source } 3).1 = [some (Utf8.ofString "Var a;"), none, none] ∧
      (Intake.takeLines { source } 3).2.failure? = some "boom" ∧
      (Task.run {} {} (Utf8.ofString "a.os") source).result
        = .error (.input (Utf8.ofString "a.os") "boom") ∧
      (Task.run {} {} (Utf8.ofString "a.os") source).written = [] := by
  intro source
  have hlines : source.lines = [Utf8.ofString "Var a;"] := by decide
  have hfails : source.failure? = some "boom" := by decide
  obtain ⟨htaken, hknown, -, -, hrun⟩ := source_read_or_failed source
  refine ⟨hfails, hlines, ?_, ?_, hrun {} {} _ _ hfails⟩
  · rw [htaken, hlines]
    rfl
  · rw [hknown 3 (by rw [hlines]; decide), hfails]

end DeclTags
