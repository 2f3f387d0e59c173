import Handout.Archive.Checksum
import Handout.Archive.Create
import Handout.Archive.Deflate
import Handout.Archive.Entry
import Handout.Archive.Extract
import Handout.Archive.Listing
import Handout.Archive.Read
import Handout.Archive.Search
import Handout.Archive.Stream
import Handout.Archive.Tar.Header
import Handout.Archive.Tar.Read
import Handout.Archive.Tar.Write
import Handout.Archive.Zip.Directory
import Handout.Archive.Zip.Read
import Handout.Archive.Zip.Write
import Handout.Bytes
import Handout.Command.Arguments
import Handout.Command.Basic
import Handout.Command.Run
import Handout.Config.Basic
import Handout.Config.Parse
import Handout.Decimal.Shortest
import Handout.Exercise.Derive
import Handout.Exercise.Move
import Handout.Exercise.Walk
import Handout.Failure
import Handout.Files.Basic
import Handout.Files.Change
import Handout.Files.Copy
import Handout.Files.Look
import Handout.Files.Traverse
import Handout.Files.Walk
import Handout.Path
import Handout.Project.Configuration
import Handout.Project.Ecosystem
import Handout.Project.Policy
import Handout.Project.Update
import Handout.Session
import Handout.Submission.Compress
import Handout.Submission.Merge
import Handout.Submission.Package
import Handout.Submission.Params
import Handout.Tag.CommentStyle
import Handout.Tag.Directive
import Handout.Tag.Lexer
import Handout.Tag.Line
import Handout.Tag.Parse
import Handout.Tag.Span
import Handout.Text.CodePage
import Handout.Text.CodePoint
import Handout.Text.Detection
import Handout.Text.Encoding
import Handout.Text.Numeral
import Handout.Text.Printable
import Handout.Text.Quoted
import Handout.Text.RawName
import Handout.Text.Shell
import Handout.Value
import Handout.Yaml.Fault
import Handout.Yaml.Graph
import Handout.Yaml.Load
import Handout.Yaml.Scalar
import Handout.Yaml.Token
import Handout.Main
import Handout.Proofs.Tag.Lexer
import Handout.Proofs.Tag.Line
import Handout.Proofs.Tag.RoundTrip
import Handout.Proofs.Tag.Grammar
import Handout.Proofs.Tag.Hidden
import Handout.Proofs.Tag.Redaction
import Handout.Proofs.Files.Basic
import Handout.Proofs.Files.Walk
import Handout.Proofs.Session
import Handout.Proofs.TwoSessions
import Handout.Proofs.Files.Canonical
import Handout.Proofs.Files.Look
import Handout.Proofs.Files.Change
import Handout.Proofs.Files.Overlay
import Handout.Proofs.Files.Traverse
import Handout.Proofs.Files.Refusal
import Handout.Proofs.Path
import Handout.Proofs.Archive.Extract
import Handout.Proofs.Project.Ecosystem
import Handout.Proofs.Project.Configuration
import Handout.Proofs.Project.Policy
import Handout.Proofs.Project.Unpack
import Handout.Proofs.Project.Target
import Handout.Proofs.Project.Progress
import Handout.Proofs.Project.Verdict
import Handout.Proofs.Project.Update
import Handout.Proofs.Files.Store
import Handout.Proofs.Files.Source
import Handout.Proofs.Files.Parents
import Handout.Proofs.Files.Depth
import Handout.Proofs.Files.Draft
import Handout.Proofs.Archive.Atomic
import Handout.Proofs.Archive.Confinement
import Handout.Proofs.Files.Copy
import Handout.Proofs.Files.Containment
import Handout.Proofs.Submission.Merge
import Handout.Proofs.Files.Layers
import Handout.Proofs.Files.View
import Handout.Proofs.Files.Listable
import Handout.Proofs.Archive.Entries
import Handout.Proofs.Project.Recognition
import Handout.Proofs.Archive.EntryName
import Handout.Proofs.Archive.Rebuild
import Handout.Proofs.Archive.Root
import Handout.Proofs.Archive.RoundTrip
import Handout.Proofs.Archive.Create
import Handout.Proofs.Archive.Search
import Handout.Proofs.Archive.Failure
import Handout.Proofs.Submission.Assemble
import Handout.Proofs.Submission.Receive
import Handout.Proofs.Submission.Pack
import Handout.Proofs.Submission.Containment
import Handout.Proofs.Submission.Noninterference
import Handout.Proofs.Submission.Provenance
import Handout.Proofs.Submission.Instructor
import Handout.Proofs.Submission.Atomic
import Handout.Proofs.Tag.Directive
import Handout.Proofs.Tag.Encodings
import Handout.Proofs.Archive.Detection
import Handout.Proofs.Exercise.Walk
import Handout.Proofs.Text.Decoding
import Handout.Proofs.Exercise.Destination
import Handout.Proofs.Exercise.Overlay
import Handout.Proofs.Exercise.Mirror
import Handout.Proofs.Tag.Restub
import Handout.Proofs.Files.Passage
import Handout.Proofs.Exercise.Unhindered
import Handout.Proofs.Exercise.Vacant
import Handout.Proofs.Exercise.Idempotence
import Handout.Proofs.Archive.Outcome
import Handout.Proofs.Archive.Members
import Handout.Proofs.Project.Classification
import Handout.Proofs.Project.Table
import Handout.Proofs.Project.Spelling
import Handout.Proofs.Submission.Membership
import Handout.Proofs.Submission.Selection
import Handout.Proofs.Submission.Contents
import Handout.Proofs.Submission.Params
import Handout.Proofs.Submission.Delivery
import Handout.Proofs.Submission.Stub
import Handout.Proofs.Submission.Environment
import Handout.Proofs.Project.Scratch
import Handout.Proofs.Project.Repetition
import Handout.Proofs.Project.Stability
import Handout.Proofs.Project.Style
import Handout.Proofs.Project.Marks
import Handout.Proofs.Submission.Student
import Handout.Proofs.Submission.Arrival
import Handout.Proofs.Submission.Integrity
import Handout.Proofs.Submission.Failure
import Handout.Proofs.Tag.Solution
import Handout.Proofs.Tag.Reading
import Handout.Proofs.Submission.Extra
import Handout.Proofs.Exercise.Move
import Handout.Proofs.Tag.Untagged
import Handout.Proofs.Text.Unmarked
import Handout.Proofs.Exercise.Extent
import Handout.Proofs.Files.Reorder
import Handout.Proofs.Files.OrderBlind
import Handout.Proofs.Submission.Order
import Handout.Proofs.Exercise.Sequence
import Handout.Proofs.Exercise.Solutions
import Handout.Proofs.Project.Acceptance
import Handout.Proofs.Submission.Layout
import Handout.Proofs.Tag.Breaks
import Handout.Proofs.Project.Bounds
import Handout.Proofs.Files.Enumeration
import Handout.Proofs.Submission.PathOrder
import Handout.Proofs.Submission.Recovery
