import Cornflakes.Wire.BigEndian
import Cornflakes.Wire.Cursor
import Cornflakes.Wire.Heap
import Cornflakes.Wire.Framing
import Cornflakes.Wire.Run
import Cornflakes.Wire.Interleave
import Cornflakes.Wire.Tape
import Cornflakes.Wire.Tagged
import Cornflakes.Wire.Alike
import Cornflakes.Flexrpc.Stream
import Cornflakes.Flexrpc.Mem
import Cornflakes.Flexrpc.Xdr
import Cornflakes.Flexrpc.Union
import Cornflakes.Flexrpc.Prim
import Cornflakes.Flexrpc.Items
import Cornflakes.Flexrpc.Str
import Cornflakes.Flexrpc.StrInto
import Cornflakes.Flexrpc.Counted
import Cornflakes.Flexrpc.MemRun
import Cornflakes.Flexrpc.Rec
import Cornflakes.Flexrpc.Rounding
import Cornflakes.Flexrpc.RecInput
import Cornflakes.Flexrpc.RecWord
import Cornflakes.Flexrpc.RecInv
import Cornflakes.Flexrpc.RecLayout
import Cornflakes.Flexrpc.RecSend
import Cornflakes.Flexrpc.RecPuts
import Cornflakes.Flexrpc.Sides
import Cornflakes.Flexrpc.Inlet
import Cornflakes.Flexrpc.Feed
import Cornflakes.Flexrpc.RecRead
import Cornflakes.Flexrpc.RecSkip
import Cornflakes.Flexrpc.RecCut
import Cornflakes.Flexrpc.RecEnd
import Cornflakes.Flexrpc.RecDuplex
import Cornflakes.Flexrpc.Cmsg
import Cornflakes.Flexrpc.CmsgPaths
import Cornflakes.Flexrpc.Prot
import Cornflakes.Flexrpc.Parallel
import Cornflakes.Flexrpc.MemParallel
import Cornflakes.Flexrpc.RecOps
import Cornflakes.Flexrpc.ReplyGrammar
import Cornflakes.Flexrpc.Release
import Cornflakes.Oats
import Cornflakes.Cornflake
import Cornflakes.Parallel
import Cornflakes.Pipeline
import Cornflakes.Uses
import Cornflakes.Deserialize
import Cornflakes.Records
import Cornflakes.Grammar
import Cornflakes.Selection
import Cornflakes.Serialize
import Cornflakes.AbsentSchema
import Cornflakes.RoundTrip
import Cornflakes.Traffic
import Cornflakes.ReplyHeader
import Cornflakes.CallHeader
import Cornflakes.Receive
import Cornflakes.Examples.Handle
import Cornflakes.Examples.Server
import Cornflakes.Examples.Overrun
import Cornflakes.Examples.Disclosure
import Cornflakes.Examples.Client
import Cornflakes.Examples.Exchange
import Cornflakes.Examples.Delivery
import Cornflakes.Examples.Overrun
