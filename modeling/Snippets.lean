import Snippets.Lib.Run
import Snippets.Lib.Bytes
import Snippets.Logger.AsyncLogger
import Snippets.Logger.Lossless
import Snippets.RingBuffer.Model
import Snippets.RingBuffer.Fifo
import Snippets.Lib.Links
import Snippets.MemoryList.Model
import Snippets.RingBuffer.Limits
import Snippets.MemoryList.Lists
import Snippets.MemoryList.Partition
import Snippets.MemoryList.Runs
import Snippets.CompactProtobuf.Wire
import Snippets.CompactProtobuf.Message
import Snippets.CompactProtobuf.Records
import Snippets.CompactProtobuf.Progress
import Snippets.CompactProtobuf.Bounds
import Snippets.CompactProtobuf.Load
import Snippets.CompactProtobuf.Encoder
import Snippets.CompactProtobuf.PassThrough
import Snippets.Lib.LeftLeaning
import Snippets.Lib.LeftLeaningBalance
import Snippets.RBTree.Model
import Snippets.RBTree.Shape
import Snippets.RBTree.Insert
import Snippets.RBTree.Swap
import Snippets.RBTree.Delete
import Snippets.Lib.BoundedMap
import Snippets.RBTree.Owned
import Snippets.RBTree.Refinement
import Snippets.RBTree.Absent
import Snippets.MemoryList.Restore
import Snippets.Lib.BoundedDeque
import Snippets.NodeList.Model
import Snippets.NodeList.Refinement
import Snippets.Lib.RedBlack
import Snippets.PointerTree.Model
import Snippets.PointerTree.Zipper
import Snippets.PointerTree.Insert
import Snippets.PointerTree.Owned
import Snippets.PointerTree.Walk
import Snippets.PointerTree.Repeated
import Snippets.PointerTree.Erase
import Snippets.PointerTree.Swap
import Snippets.PointerTree.Internal
import Snippets.Format.Model
import Snippets.Format.Template
import Snippets.Format.Plain
import Snippets.Lib.KeyedStore
import Snippets.RegionTable.Model
import Snippets.RegionTable.Chains
import Snippets.RegionTable.Region
import Snippets.RegionTable.Refinement
import Snippets.Trie.Lookup
import Snippets.Trie.Refinement
import Snippets.HashTable.Model
import Snippets.HashTable.Refinement
import Snippets.FxMap.Model
import Snippets.FxMap.Refinement
import Snippets.RBTree.Iterate
import Snippets.Lib.Pool
import Snippets.RegionAllocator.Model
import Snippets.RegionAllocator.Soundness
import Snippets.SizeClass.Model
import Snippets.SizeClass.Pages
import Snippets.SizeClass.Lists
import Snippets.SizeClass.Serving
import Snippets.SizeClass.Steps
import Snippets.SizeClass.Soundness
import Snippets.SizeClass.Filling
import Snippets.CompactProtobuf.Api
import Snippets.CompactProtobuf.Accessors
import Snippets.CompactProtobuf.Repeated
import Snippets.CompactProtobuf.Decoding
import Snippets.Lib.Lockstep
import Snippets.CompactProtobuf.Lazy
import Snippets.CompactProtobuf.Unobservable
import Snippets.CompactProtobuf.Built
import Snippets.CompactProtobuf.Emitted
import Snippets.CompactProtobuf.Written
import Snippets.CompactProtobuf.Mirror
import Snippets.CompactProtobuf.RoundTrip
import Snippets.CompactProtobuf.Buffer
import Snippets.ExchangeGifts.Filing
import Snippets.ExchangeGifts.Caps
import Snippets.ExchangeGifts.Consumed
import Snippets.LConf.Complete
import Snippets.CompactProtobuf.Mixed
import Snippets.CompactProtobuf.Packed
import Snippets.CompactProtobuf.Replaced
import Snippets.CompactProtobuf.Failed
import Snippets.CompactProtobuf.Sound
import Snippets.CompactProtobuf.Rewritten
import Snippets.CompactProtobuf.Zigzag
import Snippets.CompactProtobuf.Edits
import Snippets.CompactProtobuf.Clear
import Snippets.CompactProtobuf.Deleted
import Snippets.RingBuffer.Empty
import Snippets.MemoryList.SameLength
import Snippets.NodeList.RangeErase
import Snippets.Format.Rendering
import Snippets.Format.Padding
import Snippets.Format.Specification
import Snippets.Format.Storage
import Snippets.RegionAllocator.Exhaustion
import Snippets.RegionVector.Model
import Snippets.RegionVector.Erase
import Snippets.RegionVector.Refinement
import Snippets.SizeClass.Regions
import Snippets.ExchangeGifts.Slots
import Snippets.PersistentVector.Model
import Snippets.PersistentVector.Soundness
import Snippets.Aio.Limit
import Snippets.Aio.Model
import Snippets.Benchmark.Model
import Snippets.Benchmark.Range
import Snippets.CompactProtobuf.Codec
import Snippets.CompactProtobuf.Skipping
import Snippets.Lib.Chunks
import Snippets.LogFiles.Model
import Snippets.LogFiles.Rotation
import Snippets.LogServer.Model
import Snippets.LogServer.Delivery
import Snippets.LogServer.Progress
import Snippets.Aio.Waiting
import Snippets.Aio.Wakeup
import Snippets.MemoryList.Reopen
import Snippets.Lib.Reopening
import Snippets.RBTree.Restore
import Snippets.NodeList.Restore
import Snippets.RemoteClangFormat.Model
import Snippets.RemoteClangFormat.Framing
import Snippets.RemoteClangFormat.Delivery
import Snippets.EventLoop.Model
import Snippets.EventLoop.Mirror
import Snippets.EventLoop.Timing
import Snippets.Logger.Shutdown
import Snippets.Lib.Joins
import Snippets.Logger.Formatter
import Snippets.Logger.Lines
import Snippets.LConf.Lookup
import Snippets.CompactProtobuf.Uninitialised
