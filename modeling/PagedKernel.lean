import PagedKernel.Bench.Arena
import PagedKernel.Bench.Guards
import PagedKernel.Bench.LedgerMapper
import PagedKernel.Bench.Session
import PagedKernel.Proofs.Address
import PagedKernel.Proofs.Address.Decomposition
import PagedKernel.Proofs.BitField
import PagedKernel.Proofs.Bitmap
import PagedKernel.Proofs.Bitmap.Count
import PagedKernel.Proofs.Bitmap.Search
import PagedKernel.Proofs.Bitmap.Writes
import PagedKernel.Proofs.Entry.Encoding
import PagedKernel.Proofs.FramePool
import PagedKernel.Proofs.FramePool.Runs
import PagedKernel.Proofs.FramePool.FrameSet
import PagedKernel.Proofs.FramePool.Seeding
import PagedKernel.Proofs.Operation
import PagedKernel.Proofs.Ram
import PagedKernel.Proofs.Space.View
import PagedKernel.Proofs.Space.Sound
import PagedKernel.Proofs.Space.Turnover
import PagedKernel.Proofs.Space.Edit
import PagedKernel.Proofs.Space.Transfer
import PagedKernel.Proofs.Space.Primitive
import PagedKernel.Proofs.Space.Tables
import PagedKernel.Proofs.Space.Mapping
import PagedKernel.Proofs.Space.Lifetime
import PagedKernel.Proofs.Range.Rollback
import PagedKernel.Proofs.Range.Fresh
import PagedKernel.Proofs.Range.Identity
import PagedKernel.Proofs.Range.Lending
import PagedKernel.Proofs.Range.Allocation
import PagedKernel.Proofs.Range.Leases
import PagedKernel.Proofs.Range.Removal
import PagedKernel.Proofs.Io.Pass
import PagedKernel.Proofs.Io.Queue
import PagedKernel.Proofs.Kernel.Custody
import PagedKernel.Proofs.Io.Visits
import PagedKernel.Proofs.Io.Departures
import PagedKernel.Proofs.Io.ReadHost
import PagedKernel.Proofs.Io.LiveLoans
import PagedKernel.Proofs.Io.Accounts
import PagedKernel.Proofs.Io.Exchange
import PagedKernel.Proofs.Io.Excess
import PagedKernel.Proofs.Io.Position
import PagedKernel.Proofs.Io.SeparableDevice
import PagedKernel.Proofs.Io.Separation
import PagedKernel.Proofs.Io.Loan
import PagedKernel.Proofs.Kernel.Steady
import PagedKernel.Proofs.Kernel.Reads
import PagedKernel.Proofs.Kernel.Memory
import PagedKernel.Proofs.Kernel.Invariant
import PagedKernel.Proofs.Kernel.Calls
import PagedKernel.Proofs.Kernel.Outcome
import PagedKernel.Proofs.Kernel.Preservation
import PagedKernel.Proofs.Kernel.Boot
import PagedKernel.Proofs.Kernel.Run
import PagedKernel.Proofs.Kernel.Faultless
import PagedKernel.Proofs.Kernel.UserSpaces
import PagedKernel.Proofs.Kernel.Confinement
import PagedKernel.Proofs.Kernel.InFlight
import PagedKernel.Proofs.Kernel.Isolation
import PagedKernel.Proofs.Kernel.Scheduling
import PagedKernel.Proofs.Kernel.QueueChange
import PagedKernel.Proofs.Kernel.Delivery
import PagedKernel.Proofs.Kernel.Refusal
import PagedKernel.Proofs.Kernel.Layout
import PagedKernel.Proofs.Host.WellFormed
import PagedKernel.Proofs.Host.Landing
import PagedKernel.Proofs.Host.PageMap
import PagedKernel.Proofs.Io.Lifecycle
import PagedKernel.Proofs.Io.Serial
import PagedKernel.Proofs.Space.Teardown
import PagedKernel.Proofs.Range.Aliasing
import PagedKernel.Proofs.Range.Resumption
import PagedKernel.Proofs.Kernel.EmptyRequests
import PagedKernel.Proofs.Replay
import PagedKernel.Proofs.Sync.OnceCell
import PagedKernel.Proofs.Agreement
import PagedKernel.Proofs.Io.SideBySide
import PagedKernel.Proofs.Io.Synchronous
import PagedKernel.Proofs.Space.Blind
import PagedKernel.Proofs.Kernel.Blind
import PagedKernel.Proofs.Kernel.NumberedCalls
import PagedKernel.Proofs.Io.Borrowing
import PagedKernel.Proofs.Kernel.Borrowing
