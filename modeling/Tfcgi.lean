import Tfcgi.Lib.HostOrder
import Tfcgi.Lib.Run
import Tfcgi.Protocol
import Tfcgi.NameValuePairs
import Tfcgi.NvpGrammar
import Tfcgi.NvpSerializer
import Tfcgi.NvpRuns
import Tfcgi.NvpBounds
import Tfcgi.NvpReset
import Tfcgi.NvpLimit
import Tfcgi.NvpChunking
import Tfcgi.SendPacket
import Tfcgi.Socket
import Tfcgi.Iostream
import Tfcgi.RequestSlot
import Tfcgi.ConnectionThread
import Tfcgi.System
import Tfcgi.Framing
import Tfcgi.Accounting
import Tfcgi.History
import Tfcgi.Reuse
import Tfcgi.Stdin
import Tfcgi.Lib.Monitor
import Tfcgi.Threads
import Tfcgi.Dispatch
import Tfcgi.Shutdown
import Tfcgi.OutputStream
import Tfcgi.GetValues
import Tfcgi.Owner
import Tfcgi.Multiplex
import Tfcgi.Content
import Tfcgi.Streams
import Tfcgi.Ending
import Tfcgi.OrderlyEnd
import Tfcgi.Escape
import Tfcgi.EndRecord
import Tfcgi.RecvAll
import Tfcgi.InputBuffer
import Tfcgi.Cancel
import Tfcgi.Lib.Descent
import Tfcgi.Progress
import Tfcgi.Lib.Code
import Tfcgi.Wire
import Tfcgi.Peer
import Tfcgi.Parameters
import Tfcgi.Lib.Pace
import Tfcgi.Segments
import Tfcgi.Isolation
import Tfcgi.Headers
import Tfcgi.Process
import Tfcgi.Replies
import Tfcgi.Received
import Tfcgi.Ids
import Tfcgi.Refusals
import Tfcgi.Responses
