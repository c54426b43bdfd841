import Qse.Support.BinaryHeap
import Qse.Support.MachineWord
import Qse.Support.ByteMemory
import Qse.Support.LaidOut
import Qse.Support.ColorTree
import Qse.Support.Chains
import Qse.Support.RedBlackRepair
import Qse.Support.Returns
import Qse.Support.TreeRemoval
import Qse.Support.Ranges
import Qse.Support.CheckedInt
import Qse.Support.Fallible
import Qse.Support.Logged
import Qse.Support.Rotation
import Qse.Support.KeyedSet
import Qse.Support.Cells
import Qse.Text.Mchar
import Qse.Pairs.Data
import Qse.Xma.Model
import Qse.Xma.SizeClass
import Qse.Xma.Tracked
import Qse.Xma.FreeList
import Qse.Xma.Layout
import Qse.Xma.AllocSpec
import Qse.Xma.FreeSpec
import Qse.Xma.ReallocSpec
import Qse.Xma.Invariant
import Qse.Xma.Operations
import Qse.Xma.Runs
import Qse.Xma.SelfCheck
import Qse.Xma.Footprint
import Qse.Xma.Requests
import Qse.Rbt.Model
import Qse.Rbt.Shape
import Qse.Rbt.Balance
import Qse.Rbt.Replace
import Qse.Rbt.Insert
import Qse.Rbt.Delete
import Qse.Rbt.Runs
import Qse.Rbt.KeyOrder
import Qse.Rbt.Walk
import Qse.Rbt.FiniteMap
import Qse.Htb.Model
import Qse.Htb.Table
import Qse.Htb.Rehash
import Qse.Htb.Operations
import Qse.Htb.FiniteMap
import Qse.Htb.Layout
import Qse.Pairs.Switch
import Qse.Arr.Model
import Qse.Arr.Loops
import Qse.Arr.Sequence
import Qse.Arr.Resize
import Qse.Arr.Refinement
import Qse.Arr.Growth
import Qse.Arr.Heap
import Qse.Arr.HeapRuns
import Qse.Oht.Model
import Qse.Oht.Removal
import Qse.Oht.Runs
import Qse.StrDyn.Model
import Qse.StrDyn.Calls
import Qse.StrDyn.Edits
import Qse.StrDyn.Runs
import Qse.HashList.Model
import Qse.HashList.Chain
import Qse.HashList.Buckets
import Qse.HashList.Runs
import Qse.Time.Ntime
import Qse.Time.NtimeText
import Qse.Support.Gregorian
import Qse.Time.Calendar
import Qse.Fmt.UintMax
import Qse.Uri.Model
import Qse.Uri.Split
import Qse.Uri.Cut
import Qse.Uri.Wide
import Qse.Fma.Model
import Qse.Fma.Runs
import Qse.Tmr.Model
import Qse.Tmr.Queue
import Qse.Tmr.Operations
import Qse.Tmr.Runs
import Qse.Codec.Base64
import Qse.Codec.Utf8
import Qse.Codec.Mbwc
import Qse.Path.Model
import Qse.Path.Segments
import Qse.Path.Buffer
import Qse.Path.Correct
import Qse.Ipad.Model
import Qse.Ipad.Quad
import Qse.Ipad.Scan
import Qse.Ipad.Parse
import Qse.Http.Re
import Qse.Http.Header
import Qse.Http.Feed
import Qse.Http.ContentCallback
import Qse.Http.Framing
import Qse.Http.Seams
import Qse.Http.Jumps
import Qse.Http.Pieces
import Qse.Http.Lines
import Qse.Http.Chunked
import Qse.Http.Percent
import Qse.Http.HeaderNumbers
import Qse.Http.HttpTime
import Qse.Http.InPlace
import Qse.Http.HeaderTable
import Qse.Http.FieldLines
import Qse.Rad.Model
import Qse.Rad.Attributes
import Qse.Rad.Messages
import Qse.Rad.Runs
import Qse.Rad.ExtendedCalls
import Qse.Rad.Password
import Qse.Rad.Bounds
import Qse.Rad.Visits
import Qse.Dhcp.Model
import Qse.Dhcp.Scans
import Qse.Dhcp.Options
import Qse.Dhcp.Runs
import Qse.Sttp.Model
import Qse.Sttp.Steps
import Qse.Sttp.Pieces
import Qse.Sttp.RoundTrip
import Qse.Sttp.FailedSends
import Qse.Sttp.Reset
import Qse.Sed.Model
import Qse.Sed.Ranges
import Qse.Sed.Matches
import Qse.Sed.WriteFile
import Qse.Sed.PrintClearly
import Qse.Sed.Translate
import Qse.Sed.Cut
import Qse.Xli.Model
import Qse.Xli.Output
import Qse.Xli.JsonModel
import Qse.Xli.JsonTokens
import Qse.Xli.JsonRoundTrip
import Qse.Xli.JsonReadBack
import Qse.Xli.Read
import Qse.Xli.Readable
import Qse.Xli.Schema
import Qse.Xli.Nodes
import Qse.Xli.Ownership
import Qse.Xli.NodeLists
import Qse.Xli.Trees
import Qse.Xli.TreeFind
import Qse.Xli.TreePairs
import Qse.Xli.TreeRuns
import Qse.Xli.Lookup
import Qse.Json.Model
import Qse.Json.Nesting
import Qse.Json.Documents
import Qse.Json.Accepts
import Qse.Json.Widths
import Qse.Json.Pieces
import Qse.Awk.Number
import Qse.Awk.Arith
import Qse.Awk.Folding
import Qse.Awk.Value
import Qse.Awk.Compare
import Qse.Awk.CompareLaws
import Qse.Awk.Sound
import Qse.Awk.Release
import Qse.Awk.Construct
import Qse.Awk.CallStack
import Qse.Awk.CallFrames
import Qse.Awk.CallRuns
import Qse.Awk.Format
import Qse.Awk.FormatRuns
import Qse.Awk.Foreach
import Qse.Awk.Globals
import Qse.Awk.Targets
import Qse.Awk.IndexOnce
import Qse.Awk.Sharing
import Qse.Awk.Substitute
import Qse.Awk.IntText
import Qse.Awk.IntToStr
import Qse.Awk.Substr
import Qse.Awk.QuotedFields
