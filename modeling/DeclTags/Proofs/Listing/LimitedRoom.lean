import DeclTags.Proofs.Listing.Objects

/-!
# Listings in a sink with limited room

A sink that runs full does so in the middle of a line, and in the middle of
whatever was being written at that moment. None of this matters to what has
arrived: it is the listing up to the room there was. What went wrong depends
on one thing only, the first byte that found no room, because every byte of a
listing is written with a fault of its own (`Sink.marked`). So it does not
matter either in how many writes the listing leaves the program: two
sequences of writes with the same marked bytes fare alike in every sink.

In two of the formats every byte has the same fault. In JSON the objects have
one and the line feeds behind them the other. There is no line feed in an
object, so the byte at the break tells which of the two it is.
-/

namespace DeclTags

open Utf8

namespace Sink

/-- **The bytes of some pieces**, each with the fault that it is to break off
before it. -/
def marked (pieces : List Piece) : List (UInt8 × (String → Fault)) :=
  pieces.flatMap fun p => p.bytes.map fun b => (b, p.fault)

theorem marked_cons (p : Piece) (rest : List Piece) :
    marked (p :: rest) = p.bytes.map (fun b => (b, p.fault)) ++ marked rest :=
  List.flatMap_cons

theorem map_fst_marked (pieces : List Piece) :
    (marked pieces).map Prod.fst = pieces.flatMap Piece.bytes := by
  induction pieces with
  | nil => rfl
  | cons p rest ih =>
    rw [marked_cons, List.map_append, List.map_map, ih, List.flatMap_cons]
    exact congrArg (· ++ _) (List.map_id _)

/-- **Dividing a piece** makes no difference to its bytes. -/
theorem marked_divide (x y : String) (fault : String → Fault) (rest : List Piece) :
    marked (⟨x ++ y, fault⟩ :: rest) = marked (⟨x, fault⟩ :: ⟨y, fault⟩ :: rest) := by
  rw [marked_cons, marked_cons, marked_cons, ← List.append_assoc, ← List.map_append]
  exact congrArg (fun bytes => List.map _ bytes ++ _) (ofString_append x y)

/-- **A sink with room for some bytes takes the first of them**, and the
first that finds no room decides what went wrong. -/
theorem write_limited (refusal : String) (pieces : List Piece) (room : Nat) :
    write { room? := some room, refusal } pieces
      = ((pieces.flatMap Piece.bytes).take room,
        (marked pieces)[room]?.map fun m => m.2 refusal) := by
  induction pieces generalizing room with
  | nil => rw [write, List.flatMap_nil, List.take_nil]; rfl
  | cons p rest ih =>
    have hlength : (p.bytes.map fun b => (b, p.fault)).length = p.bytes.length := List.length_map _
    rw [write, marked_cons, List.flatMap_cons]
    dsimp only
    split
    · rename_i hfits
      rw [ih, List.take_append, List.take_of_length_le hfits,
        List.getElem?_append_right (by rw [hlength]; exact hfits), hlength]
    · rename_i hfull
      have hlt : room < p.bytes.length := Nat.lt_of_not_le hfull
      rw [List.take_append_of_le_length (Nat.le_of_lt hlt),
        List.getElem?_append_left (by rw [hlength]; exact hlt), List.getElem?_map,
        List.getElem?_eq_getElem hlt]
      rfl

end Sink

namespace Listing

/-- **What it is to break off before a byte** of a listing. -/
def faultAt (format : Format) (b : UInt8) : String → Fault :=
  match format with
  | .ctags | .xref => .output
  | .json => if b = Ascii.lineFeed then .output else .serialization

theorem lineFeed_not_mem_jsonObject (path : String) (t : Tag) :
    Ascii.lineFeed ∉ ofString (jsonObject path t) := by
  intro hfeed
  have hmem : '\n' ∈ (jsonObject path t).toList := (mem_encode_iff (by decide)).mp hfeed
  exact (printed_jsonObject path t).not_mem (by decide) hmem

/-- **Every byte of a line is written with its fault.** -/
theorem fault_of_mem_line {format : Format} {color : Bool} {path : String} {t : Tag} {p : Piece}
    (hp : p ∈ line format color path t) {b : UInt8} (hb : b ∈ p.bytes) :
    p.fault = faultAt format b := by
  cases format with
  | ctags =>
    rw [List.mem_singleton.mp hp]
    rfl
  | xref =>
    simp only [line, xrefLine, List.mem_cons, List.not_mem_nil, or_false] at hp
    rcases hp with rfl | rfl | rfl | rfl <;> rfl
  | json =>
    simp only [line, jsonLine, List.mem_cons, List.not_mem_nil, or_false] at hp
    rcases hp with rfl | rfl
    · have hne : b ≠ Ascii.lineFeed := fun he => lineFeed_not_mem_jsonObject path t (he ▸ hb)
      exact (if_neg hne).symm
    · have hfeed : b = Ascii.lineFeed := List.mem_singleton.mp hb
      exact (if_pos hfeed).symm

/-- **The marked bytes of a listing** are its bytes, each with its fault. -/
theorem marked_pieces (format : Format) (color : Bool) (path : String) (tags : List Tag) :
    Sink.marked (pieces format color path tags)
      = ((pieces format color path tags).flatMap Piece.bytes).map
        fun b => (b, faultAt format b) := by
  rw [Sink.marked, List.map_flatMap]
  refine List.flatMap_congr fun p hp => List.map_congr_left fun b hb => ?_
  obtain ⟨t, -, hline⟩ := List.mem_flatMap.mp hp
  rw [fault_of_mem_line hline hb]

end Listing

/-- **A listing that finds too little room** arrives as far as there is room,
in whatever writes it was sent off. It arrives whole if it is no longer than
that. Otherwise the byte that found no room says what went wrong. -/
theorem listing_breaks_off (format : Format) (color : Bool) (path refusal : String)
    (tags : List Tag) (room : Nat) {writes : List Piece}
    (h : Sink.marked writes = Sink.marked (Listing.pieces format color path tags)) :
    ∃ full fault?,
      Sink.write { room? := none, refusal } (Listing.pieces format color path tags)
          = (full, none) ∧
        Sink.write { room? := some room, refusal } writes = (full.take room, fault?) ∧
        (fault? = none ↔ full.length ≤ room) ∧
        ∀ b, full[room]? = some b → fault? = some (Listing.faultAt format b refusal) := by
  have hbytes : writes.flatMap Piece.bytes
      = (Listing.pieces format color path tags).flatMap Piece.bytes := by
    rw [← Sink.map_fst_marked, h, Sink.map_fst_marked]
  refine ⟨_, (Sink.marked writes)[room]?.map fun m => m.2 refusal,
    Sink.write_unlimited refusal _, ?_, ?_, ?_⟩
  · rw [Sink.write_limited, hbytes]
  · rw [h, Listing.marked_pieces, Option.map_eq_none_iff, List.getElem?_map,
      Option.map_eq_none_iff, List.getElem?_eq_none_iff]
  · intro b hb
    rw [h, Listing.marked_pieces, List.getElem?_map, hb]
    rfl

/-- A line of JSON that is written in four pieces, with room for the object
and not for the line feed behind it. -/
theorem listing_breaks_off_behind_object :
    let tags : List Tag := [⟨"x", .var, 1, none⟩]
    let object (text : String) : Piece := { text, fault := .serialization }
    let writes := [object "\x7b\"_type\":\"tag\",\"name\":", object "\"x\"",
      object ",\"path\":\"a\",\"line\":1,\"kind\":\"variable\"\x7d", { text := "\n" }]
    Sink.marked writes = Sink.marked (Listing.pieces .json false "a" tags) ∧
      Sink.write { room? := some 64, refusal := "full" } writes
        = (ofString (Listing.jsonObject "a" ⟨"x", .var, 1, none⟩), some (.output "full")) := by
  intro tags object writes
  have hmarked : Sink.marked writes = Sink.marked (Listing.pieces .json false "a" tags) := by
    rw [← Sink.marked_divide, ← Sink.marked_divide]
    exact congrArg (fun text => Sink.marked [object text, { text := "\n" }]) (by decide +kernel)
  obtain ⟨full, fault?, hfull, hwrite, -, hfault⟩ :=
    listing_breaks_off .json false "a" "full" tags 64 hmarked
  rw [Sink.write_unlimited] at hfull
  obtain ⟨rfl, -⟩ := Prod.mk.inj hfull
  refine ⟨hmarked, hwrite.trans ?_⟩
  rw [hfault Ascii.lineFeed (by decide +kernel)]
  decide +kernel

end DeclTags
