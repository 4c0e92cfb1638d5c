import MemoryKit.BlockPool
import MemoryKit.Latch
import MemoryKit.Queue.Waiting
import MemoryKit.Registry.Flusher
import MemoryKit.SlotPool.Interleaving
import MemoryKit.Proofs.Heap.Checking
import MemoryKit.Proofs.Heap.Searching
import MemoryKit.Proofs.Allocator.Safety
import MemoryKit.Proofs.Allocator.Accounts
import MemoryKit.Proofs.Allocator.Auditing
import MemoryKit.Proofs.Allocator.Coalescing
import MemoryKit.Proofs.Allocator.Failures
import MemoryKit.Proofs.Allocator.GoodFit
import MemoryKit.Proofs.Allocator.Pointers
import MemoryKit.Proofs.Allocator.Resetting
import MemoryKit.Proofs.Allocator.Statistics
import MemoryKit.Proofs.Allocator.StartingOver
import MemoryKit.Proofs.Allocator.Surviving
import MemoryKit.Proofs.Allocator.Walking
import MemoryKit.Proofs.BlockPool.Geometry
import MemoryKit.Proofs.KeyTable.Interleaved
import MemoryKit.Proofs.KeyTable.MigratingAgain
import MemoryKit.Proofs.KeyTable.Reclaiming
import MemoryKit.Proofs.KeyTable.Tombstones
import MemoryKit.Proofs.Queue.Fifo
import MemoryKit.Proofs.Queue.WakeUps
import MemoryKit.Proofs.Registry.Lookup
import MemoryKit.Proofs.Registry.Pending
import MemoryKit.Proofs.Registry.Destruction
import MemoryKit.Proofs.Registry.Room
import MemoryKit.Proofs.Registry.Visibility
import MemoryKit.Proofs.Registry.Staleness
import MemoryKit.Proofs.Registry.Refusals
import MemoryKit.Proofs.SlotPool.Agreement
import MemoryKit.Proofs.SlotPool.Counting
import MemoryKit.Proofs.TaggedIndex.Staleness
