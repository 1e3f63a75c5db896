import CommonCc.Base
import CommonCc.Lib.Answers
import CommonCc.Lib.Blocks
import CommonCc.Lib.Calendar
import CommonCc.Lib.Counters
import CommonCc.Lib.Cut
import CommonCc.Lib.FileTree
import CommonCc.Lib.Glob
import CommonCc.Lib.Keyed
import CommonCc.Lib.Linked
import CommonCc.Lib.Loop
import CommonCc.Lib.Memory
import CommonCc.Lib.Merge
import CommonCc.Lib.Pieces
import CommonCc.Lib.Replace
import CommonCc.Lib.Regions
import CommonCc.Lib.Ring
import CommonCc.Lib.Search
import CommonCc.Lib.Sorted
import CommonCc.Lib.SortedMap
import CommonCc.Lib.Strip
import CommonCc.Lib.Threads
import CommonCc.Lib.Transition
import CommonCc.Lib.Traverse
import CommonCc.Lib.Words
import CommonCc.Net.Queue.Model
import CommonCc.Net.Queue.Layout
import CommonCc.Net.Queue.Fifo
import CommonCc.Net.Queue.Outcome
import CommonCc.Net.Queue.Notify
import CommonCc.Net.Queue.Interleave
import CommonCc.Net.Queue.Safety
import CommonCc.Net.Queue.Limits
import CommonCc.Net.Grid.Model
import CommonCc.Net.Grid.Window
import CommonCc.Net.Session.Model
import CommonCc.Numbers
import CommonCc.StdString
import CommonCc.Net.Http.Model
import CommonCc.Net.Http.Lines
import CommonCc.Net.Http.RoundTrip
import CommonCc.Net.Http.Bodies
import CommonCc.Net.Http.Incomplete
import CommonCc.Net.Http.Params
import CommonCc.Net.Http.Pieces
import CommonCc.Net.Http.Reuse
import CommonCc.Net.Http.Throws
import CommonCc.Net.Http.Values
import CommonCc.Net.Http.Framing
import CommonCc.Net.Logger.Rotate
import CommonCc.Net.Logger.Model
import CommonCc.Net.Logger.Trace
import CommonCc.Net.Logger.LongPath
import CommonCc.Net.Logger.Periods
import CommonCc.Net.Logger.OnePeriod
import CommonCc.Net.Logger.Retention
import CommonCc.Net.Session.ExactlyOnce
import CommonCc.Net.Session.Expiry
import CommonCc.Net.Session.Refused
import CommonCc.Net.Check
import CommonCc.Net.Check.Text
import CommonCc.Net.Check.Stale
import CommonCc.Net.Check.Bounds
import CommonCc.Net.Client.Recv
import CommonCc.Net.Client.Framing
import CommonCc.Net.Client.Send
import CommonCc.Net.Client.Stream
import CommonCc.Net.Client.Short
import CommonCc.Net.Client.Hostile
import CommonCc.Net.Client.Close
import CommonCc.Templates.QueueT.Model
import CommonCc.Templates.QueueT.Safety
import CommonCc.Templates.QueueT.Timed
import CommonCc.Utils.ShmCache.Model
import CommonCc.Utils.ShmCache.Links
import CommonCc.Utils.ShmCache.Chains
import CommonCc.Utils.ShmCache.Delete
import CommonCc.Utils.ShmCache.Insert
import CommonCc.Utils.ShmCache.Lookup
import CommonCc.Utils.ShmCache.Groups
import CommonCc.Utils.ShmCache.BlockLru
import CommonCc.Utils.ShmCache.Sweep
import CommonCc.Utils.ShmCache.Invariant
import CommonCc.Utils.ShmCache.Lru
import CommonCc.Utils.ShmCache.Oversize
import CommonCc.Utils.ShmCache.Expire
import CommonCc.Utils.ShmCache.Stat
import CommonCc.Utils.ShmCache.Layout
import CommonCc.Utils.ShmCache.Attach
import CommonCc.Utils.Json.Model
import CommonCc.Utils.Json.Escape
import CommonCc.Utils.Json.Tokens
import CommonCc.Utils.Json.RoundTrip
import CommonCc.Utils.Json.Invert
import CommonCc.Utils.Json.Integers
import CommonCc.Utils.Json.Lexemes
import CommonCc.Utils.Json.Bounds
import CommonCc.Utils.Json.Grammar
import CommonCc.Utils.Json.Accepts
import CommonCc.Utils.Json.Derivations
import CommonCc.Utils.Json.Loose
import CommonCc.Utils.Text.Trim
import CommonCc.Utils.Text.Case
import CommonCc.Utils.Text.Extract
import CommonCc.Utils.Text.Replace
import CommonCc.Utils.Text.Remove
import CommonCc.Utils.Text.Sections
import CommonCc.Utils.Text.Ends
import CommonCc.Utils.Text.Comments
import CommonCc.Utils.Text.Split
import CommonCc.Utils.Text.Abstract
import CommonCc.Utils.Text.Blanks
import CommonCc.Utils.Text.Ip
import CommonCc.Utils.Text.Quote
import CommonCc.Utils.Url
import CommonCc.Utils.Wildcard.Model
import CommonCc.Utils.Wildcard.Sets
import CommonCc.Utils.Wildcard.Ends
import CommonCc.Utils.Wildcard.Language
import CommonCc.Db.Database
import CommonCc.Utils.Ini
import CommonCc.Utils.Ini.Values
import CommonCc.Utils.File
import CommonCc.Utils.MemFile.Model
import CommonCc.Utils.MemFile.Fifo
import CommonCc.Utils.MemFile.Linked
import CommonCc.Utils.MemFile.Chain
import CommonCc.Utils.MemFile.Listed
import CommonCc.Utils.MemFile.Tracks
import CommonCc.Utils.MemFile.SaveLoad
import CommonCc.Utils.MemFile.Lines
import CommonCc.Utils.MemFile.Positions
import CommonCc.Utils.MemFile.Answers
import CommonCc.Utils.MemFile.Rewind
import CommonCc.Utils.MemFile.NullReader
import CommonCc.Utils.MemFile.FailedLoad
import CommonCc.Utils.ExternSort.Model
import CommonCc.Utils.ExternSort.Runs
import CommonCc.Utils.ExternSort.Merging
import CommonCc.Utils.ExternSort.Sorted
import CommonCc.Utils.ExternSort.Limits
import CommonCc.Utils.ExternSort.RunFile
import CommonCc.Utils.ExternSort.Safety
import CommonCc.StdStream
import CommonCc.Utils.File.Lines
import CommonCc.Utils.DateTime
import CommonCc.Utils.Stater
import CommonCc.Utils.Ipc
import CommonCc.Utils.Sha1.Model
import CommonCc.Utils.Sha1.Padding
import CommonCc.Lib.BlockHash
import CommonCc.Utils.Md5.Model
import CommonCc.Utils.Md5.Stream
import CommonCc.Utils.Md5.Digest
import CommonCc.TinyXml.Base
import CommonCc.TinyXml.Model
import CommonCc.TinyXml.Document
import CommonCc.TinyXml.Lexical
import CommonCc.TinyXml.Texts
import CommonCc.TinyXml.References
import CommonCc.TinyXml.Tags
import CommonCc.TinyXml.Print
import CommonCc.TinyXml.Layout
import CommonCc.TinyXml.RoundTrip
import CommonCc.TinyXml.SaveLoad
import CommonCc.TinyXml.Printer
import CommonCc.TinyXml.Safety
import CommonCc.TinyXml.Total
import CommonCc.TinyXml.Accepted
import CommonCc.Lib.Doubly
import CommonCc.TinyXml.Dom.Model
import CommonCc.TinyXml.Dom.Forest
import CommonCc.TinyXml.Dom.Deletion
import CommonCc.TinyXml.Dom.Children
import CommonCc.TinyXml.Dom.Calls
import CommonCc.TinyXml.Dom.Runs
import CommonCc.Lib.Sentinel
import CommonCc.TinyXml.Attributes
