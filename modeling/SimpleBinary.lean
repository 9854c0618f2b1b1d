import SimpleBinary.Buffer.InPlace
import SimpleBinary.Codec.Checking
import SimpleBinary.Codec.Demand
import SimpleBinary.Codec.Document
import SimpleBinary.Codec.Outside
import SimpleBinary.Definition.Tokens
import SimpleBinary.Layout.Document
import SimpleBinary.Main
import SimpleBinary.Proofs.Absent
import SimpleBinary.Proofs.Agreement
import SimpleBinary.Proofs.Bounds
import SimpleBinary.Proofs.Choices
import SimpleBinary.Proofs.Clashes
import SimpleBinary.Proofs.Coders
import SimpleBinary.Proofs.Copies
import SimpleBinary.Proofs.Counted
import SimpleBinary.Proofs.Declarations
import SimpleBinary.Proofs.Declarations.Python
import SimpleBinary.Proofs.Declarations.Rust
import SimpleBinary.Proofs.Declarations.TypeScript
import SimpleBinary.Proofs.Decoded
import SimpleBinary.Proofs.Directories
import SimpleBinary.Proofs.Distinctions
import SimpleBinary.Proofs.Documents
import SimpleBinary.Proofs.Elements
import SimpleBinary.Proofs.Entries
import SimpleBinary.Proofs.Envelopes
import SimpleBinary.Proofs.Exchange
import SimpleBinary.Proofs.Flattening
import SimpleBinary.Proofs.Flattening.Bodies
import SimpleBinary.Proofs.Flattening.Types
import SimpleBinary.Proofs.Frames
import SimpleBinary.Proofs.FreeCode
import SimpleBinary.Proofs.FreeCode.TypeScript
import SimpleBinary.Proofs.FreeNames
import SimpleBinary.Proofs.FreeSources
import SimpleBinary.Proofs.FreeTexts
import SimpleBinary.Proofs.Generation
import SimpleBinary.Proofs.Grammar
import SimpleBinary.Proofs.Headers
import SimpleBinary.Proofs.Identifiers
import SimpleBinary.Proofs.Images
import SimpleBinary.Proofs.Images.Fields
import SimpleBinary.Proofs.Imports
import SimpleBinary.Proofs.Initializers
import SimpleBinary.Proofs.Initializers.Fields
import SimpleBinary.Proofs.Layouts
import SimpleBinary.Proofs.Leaves
import SimpleBinary.Proofs.Lengths
import SimpleBinary.Proofs.Letters
import SimpleBinary.Proofs.Lexing
import SimpleBinary.Proofs.Loaded
import SimpleBinary.Proofs.Measures
import SimpleBinary.Proofs.Measures.Bodies
import SimpleBinary.Proofs.Measures.Types
import SimpleBinary.Proofs.Namesakes
import SimpleBinary.Proofs.Naming
import SimpleBinary.Proofs.Nesting
import SimpleBinary.Proofs.Numbers
import SimpleBinary.Proofs.Numerals
import SimpleBinary.Proofs.Objects
import SimpleBinary.Proofs.Occurrences
import SimpleBinary.Proofs.Outcomes
import SimpleBinary.Proofs.Overruns
import SimpleBinary.Proofs.Placement
import SimpleBinary.Proofs.Printed
import SimpleBinary.Proofs.Readable
import SimpleBinary.Proofs.Readings
import SimpleBinary.Proofs.Readings.Fields
import SimpleBinary.Proofs.References
import SimpleBinary.Proofs.Regions
import SimpleBinary.Proofs.RoundTrip
import SimpleBinary.Proofs.Rounding
import SimpleBinary.Proofs.Saved
import SimpleBinary.Proofs.Scanned
import SimpleBinary.Proofs.Scopes
import SimpleBinary.Proofs.Seen
import SimpleBinary.Proofs.Shortfalls
import SimpleBinary.Proofs.Shown
import SimpleBinary.Proofs.Sizes
import SimpleBinary.Proofs.Slots
import SimpleBinary.Proofs.SourceLines
import SimpleBinary.Proofs.Stable
import SimpleBinary.Proofs.Streams
import SimpleBinary.Proofs.Texts
import SimpleBinary.Proofs.Trailers
import SimpleBinary.Proofs.Transcoding
import SimpleBinary.Proofs.Truncation
import SimpleBinary.Proofs.Versions
import SimpleBinary.Proofs.Versions.Steps
import SimpleBinary.Proofs.Words
import SimpleBinary.Proofs.Writes
import SimpleBinary.Proofs.WrittenScopes
import SimpleBinary.Schema.Balanced
import SimpleBinary.Source.Document
import SimpleBinary.Source.Output
import SimpleBinary.Text.Case
