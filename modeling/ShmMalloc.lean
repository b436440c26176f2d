import ShmMalloc.Library.LinkedTree
import ShmMalloc.Library.RedBlack
import ShmMalloc.Library.Segments
import ShmMalloc.Library.Machine
import ShmMalloc.Library.Mutex
import ShmMalloc.Library.Script
import ShmMalloc.Library.Loop
import ShmMalloc.Library.BlockStore
import ShmMalloc.Library.FreeList
import ShmMalloc.Library.HeapTree
import ShmMalloc.Library.TreePaths
import ShmMalloc.Exec
import ShmMalloc.Rbtree.Model
import ShmMalloc.Rbtree.Links
import ShmMalloc.Rbtree.FixInsert
import ShmMalloc.Rbtree.Insert
import ShmMalloc.Rbtree.FixDelete
import ShmMalloc.Rbtree.Delete
import ShmMalloc.Rbtree.Search
import ShmMalloc.Rbtree.Runs
import ShmMalloc.Rbtree.Lower
import ShmMalloc.Rbtree.Step
import ShmMalloc.Util.Bitmap
import ShmMalloc.Tree.Model
import ShmMalloc.OpWrapper
import ShmMalloc.State
import ShmMalloc.Chunk.MediumModel
import ShmMalloc.Chunk.Model
import ShmMalloc.Context
import ShmMalloc.Malloc
import ShmMalloc.Tree.Merge
import ShmMalloc.Tree.Pool
import ShmMalloc.Tree.Ordered
import ShmMalloc.Tree.Leftist
import ShmMalloc.Tree.Heaps
import ShmMalloc.Chunk.PoolSpec
import ShmMalloc.Chunk.MediumLayout
import ShmMalloc.Chunk.MediumRelease
import ShmMalloc.Chunk.MediumSpec
import ShmMalloc.Chunk.MediumRuns
import ShmMalloc.Chunk.MediumLive
import ShmMalloc.Chunk.MediumOffsets
import ShmMalloc.Chunk.RunSpec
import ShmMalloc.Process.Share
import ShmMalloc.Process.SetUp
import ShmMalloc.Arena.Spec
import ShmMalloc.Arena.NewChunk
import ShmMalloc.Process.Model
import ShmMalloc.Chunk.SmallCalls
import ShmMalloc.Chunk.SmallPages
import ShmMalloc.Chunk.SmallSpec
import ShmMalloc.Chunk.PoolRuns
import ShmMalloc.Chunk.RunCalls
import ShmMalloc.Process.Writes
import ShmMalloc.Process.Effect
import ShmMalloc.Process.Tables
import ShmMalloc.Process.Lookup
import ShmMalloc.Process.Ids
import ShmMalloc.Process.Exact
import ShmMalloc.Process.Mapped
import ShmMalloc.Process.Survive
import ShmMalloc.Process.Keys
import ShmMalloc.System.Calls
import ShmMalloc.System.Init
import ShmMalloc.System.Sysv
import ShmMalloc.System.Processes
import ShmMalloc.Heap.Block
import ShmMalloc.Heap.Same
import ShmMalloc.Heap.Refused
import ShmMalloc.Heap.Arenas
import ShmMalloc.Heap.Chunks
import ShmMalloc.Heap.Malloc
import ShmMalloc.Heap.Free
import ShmMalloc.Chunk.SmallRuns
import ShmMalloc.Heap.Realloc
import ShmMalloc.Heap.Runs
import ShmMalloc.Heap.Big
import ShmMalloc.Heap.Blocks
import ShmMalloc.Heap.Calls
import ShmMalloc.Heap.Place
import ShmMalloc.Heap.Resize
import ShmMalloc.Heap.Overwrite
import ShmMalloc.Heap.Spare
import ShmMalloc.Heap.Kept
import ShmMalloc.Heap.Full
import ShmMalloc.Heap.Mutex
import ShmMalloc.Client.Model
import ShmMalloc.Client.Addresses
import ShmMalloc.Client.Data
import ShmMalloc.Client.Runs
import ShmMalloc.Client.History
import ShmMalloc.Client.Progress
