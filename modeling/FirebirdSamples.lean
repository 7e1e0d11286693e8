import FirebirdSamples.Srp.ClientProof
import FirebirdSamples.Library.StreamProgram
import FirebirdSamples.Wire.ReaderRuns
import FirebirdSamples.Wire.Calls
import FirebirdSamples.Wire.Response
import FirebirdSamples.Wire.Handshake
import FirebirdSamples.Wire.HandshakeRuns
import FirebirdSamples.Wire.Session
import FirebirdSamples.Wire.Progress
import FirebirdSamples.Wire.Requests
import FirebirdSamples.Blr.Bounds
import FirebirdSamples.Grammar.Rules
import FirebirdSamples.Library.Regex
import FirebirdSamples.Grammar.SubGraph
import FirebirdSamples.Library.RegexSearch
import FirebirdSamples.Grammar.Parse
import FirebirdSamples.Grammar.Passes
import FirebirdSamples.Grammar.Collect
import FirebirdSamples.Grammar.Blocks
import FirebirdSamples.Grammar.Section
import FirebirdSamples.Grammar.Printed
import FirebirdSamples.Grammar.Normal
import FirebirdSamples.Grammar.Actions
import FirebirdSamples.Grammar.Invisible
import FirebirdSamples.Grammar.Overrun
import FirebirdSamples.Library.LittleEndian
import FirebirdSamples.OnDisk.HeaderPage
import FirebirdSamples.Library.TagLengthValue
import FirebirdSamples.OnDisk.Census
import FirebirdSamples.Wire.ParameterBlocks
import FirebirdSamples.Blr.Messages
import FirebirdSamples.Blr.UnknownTypes
import FirebirdSamples.Blr.Twins
import FirebirdSamples.Info.Blobs
import FirebirdSamples.Info.Services
import FirebirdSamples.Library.Scanner
import FirebirdSamples.Sql.Lexer
import FirebirdSamples.Sql.Pooling
import FirebirdSamples.Client.Dpb
import FirebirdSamples.Library.TextLines
import FirebirdSamples.Trace.SessionList
import FirebirdSamples.Info.ServiceOutput
import FirebirdSamples.Events.Listener
import FirebirdSamples.Client.Db
import FirebirdSamples.Library.Columns
import FirebirdSamples.Client.Table
import FirebirdSamples.Trace.Stream
import FirebirdSamples.Threads.Helpers
import FirebirdSamples.Threads.LockManager
import FirebirdSamples.Info.ServiceInfo
import FirebirdSamples.Info.Counters
import FirebirdSamples.Grammar.FirstLines
import FirebirdSamples.Grammar.Declared
import FirebirdSamples.Grammar.Layout
import FirebirdSamples.Grammar.Braces
import FirebirdSamples.Blr.HexDump
import FirebirdSamples.Blr.Listing
import FirebirdSamples.OnDisk.Endless
import FirebirdSamples.OnDisk.Twins
import FirebirdSamples.Library.BufferedLines
import FirebirdSamples.Client.Mapped
import FirebirdSamples.Client.Segments
import FirebirdSamples.Grammar.Depths
import FirebirdSamples.Grammar.Tool
import FirebirdSamples.Library.Processes
import FirebirdSamples.Threads.PageCache
import FirebirdSamples.Threads.CarefulWrites
