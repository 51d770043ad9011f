import DeclTags.FileTree
import DeclTags.Program
import DeclTags.Language.Definition
import DeclTags.Main
import DeclTags.Proofs.Utf8.Cutting
import DeclTags.Proofs.Utf8.Encoding
import DeclTags.Proofs.Utf8.LastCharacter
import DeclTags.Proofs.Utf8.Chunks
import DeclTags.Proofs.Utf8.WellFormed
import DeclTags.Proofs.Alphabet.Word
import DeclTags.Proofs.Alphabet.Folding
import DeclTags.Proofs.Place.Offset
import DeclTags.Proofs.Place.Boundary
import DeclTags.Proofs.Place.Blanks
import DeclTags.Proofs.Place.LookingBack
import DeclTags.Proofs.Place.Slices
import DeclTags.Proofs.Place.Operations
import DeclTags.Proofs.Keyword
import DeclTags.Proofs.Place.WholeWord
import DeclTags.Proofs.Place.Stretches
import DeclTags.Proofs.Lexeme
import DeclTags.Proofs.Alphabet.Blank
import DeclTags.Proofs.Blanking
import DeclTags.Proofs.Outline
import DeclTags.Proofs.Scan.Leads
import DeclTags.Proofs.Scan.Word
import DeclTags.Proofs.Scan.Reading
import DeclTags.Proofs.Scan.Run
import DeclTags.Proofs.Scan.Progress
import DeclTags.Proofs.Scope
import DeclTags.Proofs.Occurrence
import DeclTags.Proofs.LineNumber
import DeclTags.Proofs.Folding.Line
import DeclTags.Proofs.Folding.Tags
import DeclTags.Proofs.Folding.Chunks
import DeclTags.Proofs.Text
import DeclTags.Proofs.Declaration.Syntax
import DeclTags.Proofs.Declaration.Tags
import DeclTags.Proofs.Declaration.ClosedRoutine
import DeclTags.Proofs.Source.Lines
import DeclTags.Proofs.Scan.Spelling
import DeclTags.Proofs.Source.LineEnds
import DeclTags.Proofs.Listing.Lines
import DeclTags.Proofs.Listing.TagsFile
import DeclTags.Proofs.Json.Reading
import DeclTags.Proofs.Json.Number
import DeclTags.Proofs.Json.Object
import DeclTags.Proofs.Listing.Objects
import DeclTags.Proofs.Listing.LimitedRoom
import DeclTags.Proofs.Settings.FirstPass
import DeclTags.Proofs.Settings.Forms
import DeclTags.Proofs.Settings.Arguments
import DeclTags.Proofs.Settings.Entries
import DeclTags.Proofs.Settings.Separator
import DeclTags.Proofs.Settings.Value
import DeclTags.Proofs.Settings.Reading
import DeclTags.Proofs.Inputs
import DeclTags.Proofs.Log.Records
import DeclTags.Proofs.Scan.Kinds
import DeclTags.Proofs.Settings.Kinds
import DeclTags.Proofs.Settings.Outcome
import DeclTags.Proofs.Scan.Positions
import DeclTags.Proofs.Log.Faithful
