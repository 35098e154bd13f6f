import Zhtps.BufferPool
import Zhtps.Lib.Linked
import Zhtps.Lib.SwapRemove
import Zhtps.Http.Fragmentation
import Zhtps.Http.Message
import Zhtps.Admission.Decision
import Zhtps.ResponseStream.Consume
import Zhtps.Worker.Booked
import Zhtps.Http.Chunked
import Zhtps.Http.Bounds
import Zhtps.Http.ResponseHead
import Zhtps.Http.Recipient
import Zhtps.Http.HeadStorage
import Zhtps.Worker.HeadStorage
import Zhtps.Config.Sizing
import Zhtps.Worker.Contract.Receiving
import Zhtps.Worker.Streams
import Zhtps.Worker.Borrowing
import Zhtps.Worker.FillStream
import Zhtps.Worker.Batch.View
import Zhtps.Http.Path
import Zhtps.Endpoint.Matching
import Zhtps.Endpoint.StaticFiles
import Zhtps.Http.Blocks
import Zhtps.Http.Grammar
import Zhtps.Http.ChunkLine
import Zhtps.Http.Framing
import Zhtps.Http.Conditions
import Zhtps.Lib.Memory
import Zhtps.Http2.Respond
import Zhtps.Http2.Trailers
import Zhtps.Http2.Views
import Zhtps.Logger.Shared
import Zhtps.Http.DateCentury
import Zhtps.Endpoint.Query
import Zhtps.Worker.Sweep
import Zhtps.Worker.ErrorResponse
import Zhtps.Logger.Line
import Zhtps.Worker.Redirect
import Zhtps.Endpoint.Encoding
import Zhtps.Config.Placing
import Zhtps.Config.Nic
import Zhtps.Lib.Rotation
import Zhtps.Endpoint.Json
import Zhtps.Endpoint.Scratch
import Zhtps.Http2.Budget
import Zhtps.Endpoint.Access
import Zhtps.Endpoint.Exchange
import Zhtps.Http2.Ciphertext
import Zhtps.Http2.Plaintext
import Zhtps.Inspection.Handshake
import Zhtps.Lib.Json
import Zhtps.Logger.Accounts
import Zhtps.Worker.Frame.Streams
import Zhtps.Worker.Hooks
import Zhtps.Worker.Descriptors
import Zhtps.Executor.Lanes
import Zhtps.Executor.Completions
import Zhtps.Worker.Shutdown
import Zhtps.Metrics.Workers
