import DeclTags.Ascii
import DeclTags.Listing
import DeclTags.Proofs.Utf8.Ascii
import Mathlib.Data.List.Forall2

/-!
# Listings in lines

A program that reads a listing takes it line by line, so the first thing a
format has to see to is that it has one line for each tag: a line feed at the
end of every line and none before. Formats that do so have their listings
read back if they have their lines read back (`exists_inLines`).
-/

namespace DeclTags

open Utf8

/-- **Bytes in lines**: the division at line feeds. -/
structure InLines (bytes : Bytes) (lines : List Bytes) : Prop where
  /-- Each line is ended by a line feed. -/
  ended : lines.flatMap (· ++ [Ascii.lineFeed]) = bytes
  /-- There is no line feed in a line. -/
  whole : ∀ l ∈ lines, Ascii.lineFeed ∉ l

namespace Listing

/-- **A listing whose lines are read back is read back**, one line for each
tag. -/
theorem exists_inLines {format : Format} {color : Bool} {path : String} {tags : List Tag}
    {text : Tag → List Char} {ReadsAs : Bytes → Tag → Prop}
    (hline : ∀ t, (line format color path t).flatMap Piece.bytes = encode (text t ++ ['\n']))
    (hwhole : ∀ t ∈ tags, '\n' ∉ text t) (hread : ∀ t ∈ tags, ReadsAs (encode (text t)) t) :
    ∃ lines, InLines ((pieces format color path tags).flatMap Piece.bytes) lines ∧
      List.Forall₂ ReadsAs lines tags := by
  refine ⟨tags.map fun t => encode (text t), ⟨?_, ?_⟩, ?_⟩
  · rw [List.flatMap_map, pieces, List.flatMap_assoc]
    refine congrArg (tags.flatMap ·) (funext fun t => ?_)
    rw [hline, encode_append]
    rfl
  · intro l hl
    obtain ⟨t, ht, rfl⟩ := List.mem_map.mp hl
    exact fun hfeed => hwhole t ht ((mem_encode_iff (c := '\n') (by decide)).mp hfeed)
  · rw [List.forall₂_map_left_iff]
    exact List.forall₂_same.mpr hread

end Listing

end DeclTags
