import MnApp.Lib.Loop
import MnApp.Lib.CLib
import MnApp.Lib.Cut
import MnApp.Http.Stream
import MnApp.Http.Parser
import MnApp.Http.Scan
import MnApp.Http.Message
import MnApp.Http.FirstLine
import MnApp.Http.Head
import MnApp.Http.PlainBody
import MnApp.Http.Framing
import MnApp.Http.RawHead
import MnApp.Http.NoBody
import MnApp.Http.Chunked
import MnApp.Http.ChunkedFraming
import MnApp.Http.HeaderOrder
import MnApp.Http.ChunkText
import MnApp.Http.ChunkSound
import MnApp.Lib.Run
import MnApp.Http.Uri
import MnApp.Http.UriParts
import MnApp.Client.System
import MnApp.Client.Cache
import MnApp.Client.Identity
import MnApp.Client.Ownership
import MnApp.Client.Outcome
import MnApp.Client.Transport
import MnApp.Client.Sending
import MnApp.Client.Reconnect
import MnApp.Client.Unasked
import MnApp.Client.Splitting
import MnApp.Client.HeaderTable
import MnApp.Http.Iteration
import MnApp.Http.Termination
import MnApp.Http.HeaderRanges
import MnApp.Http.Lines
import MnApp.Http.ContentLength
import MnApp.Http.Variants
import MnApp.Http.RunningSize
import MnApp.Http.Recycling
import MnApp.Http.Forward
import MnApp.Http.LineText
import MnApp.Http.Method
import MnApp.Http.Errno
import MnApp.Http.HeadCalls
import MnApp.Http.UrlEncode
import MnApp.Http.Counters
import MnApp.Http.UrlDecode
import MnApp.Http.UrlCanonical
import MnApp.Http.Writer
import MnApp.Http.Unfinished
import MnApp.Http.Truncation
import MnApp.Http.Piecewise
import MnApp.Client.Turns
import MnApp.Client.Responses
import MnApp.Client.Matching
import MnApp.Http.Query
import MnApp.Http.Buffers
import MnApp.Http.QuerySplit
import MnApp.Http.QueryAppend
import MnApp.Server.TcpServer
import MnApp.Server.Lifecycle
import MnApp.Command.Context
import MnApp.Command.Aligned
import MnApp.Command.Symbols
import MnApp.Command.Help
import MnApp.Command.Wrapping
import MnApp.Http.Pipeline
import MnApp.Client.EndToEnd
import MnApp.Http.CallOrder
import MnApp.Client.Sockets
import MnApp.Client.Tls
import MnApp.Server.Daemonize
import MnApp.Http.Accepted
import MnApp.Lib.Retry
import MnApp.Lib.Getopt
import MnApp.Command.Options
import MnApp.Command.Settings
