import Salam.Engine.Memory
import Salam.Engine.Gep
import Salam.Engine.InOrder
import Salam.Engine.Units
import Salam.Engine.Ends
import Salam.Comm.Wakeup
import Salam.Scratchpad.Responses
import Salam.Scratchpad.Ready
import Salam.Dma.Copy
import Salam.Dma.Port
import Salam.Events.Checkpoint
import Salam.Mem.PacketOrder
import Salam.Mem.PageTableRuns
import Salam.Mem.StackDist
import Salam.Mem.SnoopTracking
import Salam.Mem.MshrFlags
import Salam.Mem.ReadyOrder
import Salam.Mem.CheckerRuns
import Salam.Mem.XBarLayer
import Salam.Mem.Bridge
import Salam.Mem.SimpleMemory
import Salam.Mem.FunctionalAccess
import Salam.Dram.Timing
import Salam.Dram.FrFcfs
import Salam.Dram.Decode
import Salam.Dram.QueueRuns
import Salam.Ruby.BufferBounds
import Salam.Ruby.BufferOrder
import Salam.Prefetch.Translations
import Salam.Comm.Splitting
import Salam.Comm.StreamPort
import Salam.Dma.Buffers
import Salam.Dma.Functional
import Salam.Dma.StreamDma
import Salam.Ir.Select
import Salam.Ir.Address
import Salam.Ir.Header
import Salam.Ir.Decimal
import Salam.Ir.Brackets
import Salam.Ir.Blocks
import Salam.O3.RenameRuns
import Salam.O3.StoreSet
import Salam.O3.Rob
import Salam.Pred.Recovery
import Salam.Cache.Slots
import Salam.Cache.Multi
import Salam.Cache.Skewing
import Salam.Replacement.TreePlru
import Salam.Replacement.SecondChance
import Salam.Replacement.SatCounter
import Salam.Cache.FaLruRuns
import Salam.Cache.CompressedTags
import Salam.Base.RangeInserts
import Salam.Base.TrieRuns
import Salam.Base.CircleBuf
import Salam.Base.RoundTrip
import Salam.Base.Offset
import Salam.Base.MergedRange
