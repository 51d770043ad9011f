import DeclTags.Proofs.Json.Object
import DeclTags.Proofs.Listing.Lines

/-!
# Listings in JSON are read back

JSON escapes what it cannot carry, so unlike a tags file it asks nothing of
the texts of a tag: names, scopes and the path may have any characters at
all. In particular no character below the space is left in an object
(`printed_jsonObject`), and the line feed behind an object is the only one
of its line.
-/

namespace DeclTags

open Utf8

namespace Listing

/-- **The members that the object of a tag has.** -/
def members (path : String) (t : Tag) : List (String × Json.Datum) :=
  [("_type", .text "tag"), ("name", .text t.name), ("path", .text path),
    ("line", .number t.line), ("kind", .text t.kind.name)] ++
  match t.scope? with
  | some f => [("scope", .text f), ("scopeKind", .text "function")]
  | none => []

/-- **A line is read as the object of a tag**, in a listing for the given
path: it is an object, and it has the members of the tag and no others. -/
def ReadsAs (path : String) (line : Bytes) (t : Tag) : Prop :=
  Json.readAll Json.object line = .ok (members path t)

/-- The fields of a tag are written for these members. -/
theorem writesMember_jsonFields (path : String) (t : Tag) :
    List.Forall₂ Json.WritesMember (jsonFields path t) (members path t) := by
  have text {name text : String} :
      Json.WritesMember (name, Json.quoted text) (name, .text text) :=
    ⟨rfl, Json.writes_quoted text⟩
  have line : Json.WritesMember ("line", toString t.line) ("line", .number t.line) :=
    ⟨rfl, Json.writes_toString t.line⟩
  unfold jsonFields members
  refine List.rel_append (.cons text (.cons text (.cons text (.cons line (.cons text .nil))))) ?_
  cases t.scope? with
  | none => exact .nil
  | some f => exact .cons text (.cons text .nil)

/-- **The object of a tag is read as its members.** -/
theorem readsAs_jsonObject (path : String) (t : Tag) :
    ReadsAs path (ofString (jsonObject path t)) t :=
  Json.readAll_object (writesMember_jsonFields path t)

/-- **There are no control characters in an object.** -/
theorem printed_jsonObject (path : String) (t : Tag) : Printed (jsonObject path t).toList :=
  Json.printed_objectText (writesMember_jsonFields path t)

theorem flatMap_bytes_jsonLine (path : String) (t : Tag) :
    (jsonLine path t).flatMap Piece.bytes = encode ((jsonObject path t).toList ++ ['\n']) := by
  rw [encode_append]
  rfl

end Listing

/-- **Listings in JSON can be read back**, whatever the texts of the tags and
the path are: there is one line for each tag, and it is an object whose
members are the tag's. -/
theorem objects_read_back (color : Bool) (refusal path : String) (tags : List Tag) :
    ∃ written lines,
      Sink.write { room? := none, refusal } (Listing.pieces .json color path tags)
          = (written, none) ∧
        InLines written lines ∧
        List.Forall₂ (Listing.ReadsAs path) lines tags := by
  obtain ⟨lines, hlines, hread⟩ : ∃ lines,
      InLines ((Listing.pieces .json color path tags).flatMap Piece.bytes) lines ∧
        List.Forall₂ (Listing.ReadsAs path) lines tags := by
    refine Listing.exists_inLines (Listing.flatMap_bytes_jsonLine path) (fun t _ => ?_)
      (fun t _ => Listing.readsAs_jsonObject path t)
    exact (Listing.printed_jsonObject path t).not_mem (by decide)
  exact ⟨_, lines, Sink.write_unlimited refusal _, hlines, hread⟩

end DeclTags
