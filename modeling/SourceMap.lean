import SourceMap.Text.Bytes
import SourceMap.Mappings.Error
import SourceMap.Mappings.Walk
import SourceMap.Search
import SourceMap.Mappings.Place
import SourceMap.StringTable
import SourceMap.IndexedTable
import SourceMap.Envelope.Write
import SourceMap.Envelope.Read
import SourceMap.Body
import SourceMap.Files.Disk
import SourceMap.UrlTable
import SourceMap.Json.Read
import SourceMap.Bundle.Append
import SourceMap.Bundle.Files
import SourceMap.Command.Arguments
import SourceMap.Command.Run
import SourceMap.Main
import SourceMap.Proofs.RoundTrip.Vlq
import SourceMap.Proofs.RoundTrip.Segment
import SourceMap.Proofs.RoundTrip.Line
import SourceMap.Proofs.RoundTrip.Text
import SourceMap.Proofs.RoundTrip.Canonical
import SourceMap.Proofs.RoundTrip.Grammar
import SourceMap.Proofs.Faults.Field
import SourceMap.Proofs.Faults.Search
import SourceMap.Proofs.Faults.Place
import SourceMap.Proofs.Faults.Span
import SourceMap.Proofs.Faults.Values
import SourceMap.Proofs.Faults.Walk
import SourceMap.Proofs.Faults.Pieces
import SourceMap.Proofs.Faults.Limits
import SourceMap.Proofs.RoundTrip.Json
import SourceMap.Proofs.RoundTrip.Envelope
import SourceMap.Proofs.Growth.Mappings
import SourceMap.Proofs.Growth.Tables
import SourceMap.Proofs.Growth.Interning
import SourceMap.Proofs.Growth.Lines
import SourceMap.Proofs.Growth.Append
import SourceMap.Proofs.Growth.Readable
import SourceMap.Proofs.Growth.Contents
import SourceMap.Proofs.RoundTrip.Root
import SourceMap.Proofs.RoundTrip.Map
import SourceMap.Proofs.RoundTrip.Sources
import SourceMap.Mappings.Step
import SourceMap.Proofs.Growth.Steps
import SourceMap.Bundle.Operation
import SourceMap.Proofs.Reach.Edit
import SourceMap.Proofs.Reach.Operation
import SourceMap.Proofs.Reach.Continued
import SourceMap.Proofs.Reach.Concat
import SourceMap.Proofs.Reach.Built
import SourceMap.Proofs.Reach.Unchanged
import SourceMap.Proofs.Reach.Refusal
import SourceMap.Proofs.Reach.SourceContents
import SourceMap.Proofs.Merge.Store
import SourceMap.Proofs.Merge.Lasting
import SourceMap.Proofs.Merge.Load
import SourceMap.Proofs.Merge.Save
import SourceMap.Proofs.Merge.Reload
import SourceMap.Proofs.Merge.Run
import SourceMap.Proofs.Merge.Again
import SourceMap.Proofs.Urls.Components
import SourceMap.Proofs.Urls.Boundary
import SourceMap.Proofs.Urls.Longest
import SourceMap.Proofs.Urls.Return
import SourceMap.Proofs.Comments.Grammar
import SourceMap.Proofs.Comments.Lines
import SourceMap.Proofs.Comments.Survivors
import SourceMap.Proofs.Comments.Reloaded
import SourceMap.Proofs.Reach.RefusedLine
import SourceMap.Proofs.Reach.FailedLoad
