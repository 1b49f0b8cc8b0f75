import CiteParser.Core.Loop
import CiteParser.Core.Segment
import CiteParser.Core.Source
import CiteParser.Core.CString
import CiteParser.Core.Memory
import CiteParser.Core.Search
import CiteParser.Core.Minimum
import CiteParser.Core.Table
import CiteParser.Core.Alignment
import CiteParser.Core.Band
import CiteParser.Core.Machine
import CiteParser.Core.Ring
import CiteParser.Core.Fifo
import CiteParser.Core.Recent
import CiteParser.Core.Prefetch
import CiteParser.Core.Tracing
import CiteParser.Core.Runs
import CiteParser.Core.Markup
import CiteParser.Core.Ledger
import CiteParser.Core.Chain
import CiteParser.Core.Prefixes
import CiteParser.Core.Brackets
import CiteParser.Core.Marks
import CiteParser.Core.Groups
import CiteParser.Core.Thinning
import CiteParser.Core.Shell
import CiteParser.Core.Utf8
import CiteParser.Core.Slot
import CiteParser.Core.Decimal
import CiteParser.Text.Chars
import CiteParser.Text.Split
import CiteParser.Text.SplitFacts
import CiteParser.Text.Pieces
import CiteParser.Text.Tokenise
import CiteParser.Text.TokenText
import CiteParser.Text.Reads
import CiteParser.Text.EditDistance
import CiteParser.Text.EditBand
import CiteParser.Text.LooseEnd
import CiteParser.Features.Words
import CiteParser.Features.Case
import CiteParser.Features.Dict
import CiteParser.Features.DictLoad
import CiteParser.Features.DictLookup
import CiteParser.Features.Snapshot
import CiteParser.Features.Abbreviation
import CiteParser.Features.Digits
import CiteParser.Features.Glued
import CiteParser.Features.Carried
import CiteParser.Features.TokenRoom
import CiteParser.Features.Handed
import CiteParser.Predict.Queue
import CiteParser.Predict.QueueRun
import CiteParser.Predict.Attribution
import CiteParser.Predict.Window
import CiteParser.Predict.Columns
import CiteParser.Predict.Loop
import CiteParser.Predict.Scratch
import CiteParser.Predict.Brackets
import CiteParser.Predict.WindowEdges
import CiteParser.Predict.Streaming
import CiteParser.Store.Tokens
import CiteParser.Store.TokenStack
import CiteParser.Store.Parse
import CiteParser.Store.Lifecycle
import CiteParser.Store.TagNames
import CiteParser.Store.Strip
import CiteParser.Store.Reading
import CiteParser.Store.Area
import CiteParser.Store.ArrayBounds
import CiteParser.Area.Filter
import CiteParser.Area.Window
import CiteParser.Area.Words
import CiteParser.Area.Keys
import CiteParser.Area.Pages
import CiteParser.Area.LastMatch
import CiteParser.Area.Scanners
import CiteParser.Area.ScannerReads
import CiteParser.Area.Overruns
import CiteParser.Area.NameReads
import CiteParser.Area.ReadsText
import CiteParser.Area.ScannerValues
import CiteParser.Area.Progress
import CiteParser.Area.EndOffsets
import CiteParser.Area.EndRecords
import CiteParser.Area.Closeness
import CiteParser.Area.Pool
import CiteParser.Area.Ordinals
import CiteParser.Area.Combine
import CiteParser.Area.Stacks
import CiteParser.Area.Merge
import CiteParser.Area.Adjacency
import CiteParser.Area.Closest
import CiteParser.Predict.Sample
import CiteParser.Predict.Decode
import CiteParser.Predict.Capacity
import CiteParser.Citation.Node
import CiteParser.Citation.Names
import CiteParser.Citation.Info
import CiteParser.Citation.Finishing
import CiteParser.Citation.Writes
import CiteParser.Citation.Numbers
import CiteParser.Citation.Chain
import CiteParser.Citation.Bounds
import CiteParser.Citation.RowBytes
import CiteParser.Citation.Join
import CiteParser.Citation.Undo
import CiteParser.Citation.Record
import CiteParser.Citation.Routing
import CiteParser.Service.Framing
import CiteParser.Service.Range
import CiteParser.Predict.WholeChars
import CiteParser.Citation.ValidFields
import CiteParser.Service.NameRequest
import CiteParser.Service.NameQuoting
import CiteParser.Service.Url
import CiteParser.Core.InPlace
import CiteParser.Json.Escapes
import CiteParser.Service.Reply
import CiteParser.Service.Session
import CiteParser.Service.NameSession
import CiteParser.Core.Trim
import CiteParser.Store.Ini
import CiteParser.Store.IniGrammar
import CiteParser.Store.IniLines
import CiteParser.Store.IniRun
import CiteParser.Store.TokenFile
import CiteParser.Core.Assoc
import CiteParser.Core.BitPairs
import CiteParser.Core.Cells
import CiteParser.Core.Probing
import CiteParser.Core.TrialDivision
import CiteParser.Features.DictTables
import CiteParser.Core.Grid
import CiteParser.Core.Trellis
import CiteParser.Crf.Features
import CiteParser.Crf.Lattice
import CiteParser.Crf.Viterbi
import CiteParser.Crf.Parse
import CiteParser.Predict.Arrays
import CiteParser.Crf.Tagging
