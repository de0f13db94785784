import TinyLsm.AgeOrder
import TinyLsm.AppendFailure
import TinyLsm.BitRot
import TinyLsm.ByteUtil
import TinyLsm.Checksum
import TinyLsm.Clients
import TinyLsm.CompactionCrash
import TinyLsm.DamagedRuns
import TinyLsm.Database
import TinyLsm.Directory
import TinyLsm.FailedFlush
import TinyLsm.FailingRuns
import TinyLsm.FileNames
import TinyLsm.Harness
import TinyLsm.Inventory
import TinyLsm.KvStore
import TinyLsm.Leftovers
import TinyLsm.LengthLimits
import TinyLsm.Library.BinarySearch
import TinyLsm.Library.Damage
import TinyLsm.Library.Durability
import TinyLsm.Library.FileSystem
import TinyLsm.Library.Framing
import TinyLsm.Library.Layers
import TinyLsm.Library.Linearization
import TinyLsm.Library.Lines
import TinyLsm.Library.Monitor
import TinyLsm.Library.Numeral
import TinyLsm.Library.OrderedMap
import TinyLsm.Library.SharedMutex
import TinyLsm.Library.ShiftRegister
import TinyLsm.Library.Transition
import TinyLsm.Linearizability
import TinyLsm.LiveView
import TinyLsm.Meaning
import TinyLsm.MemTable
import TinyLsm.MissedCompaction
import TinyLsm.Numbering
import TinyLsm.Opening
import TinyLsm.Operation
import TinyLsm.PosixIo
import TinyLsm.PowerLoss
import TinyLsm.Process
import TinyLsm.Progress
import TinyLsm.Reading
import TinyLsm.RecordFormat
import TinyLsm.Recovery
import TinyLsm.Refinement
import TinyLsm.Reopen
import TinyLsm.Repl
import TinyLsm.Replay
import TinyLsm.SSTable
import TinyLsm.SSTable.Bounds
import TinyLsm.SSTable.Format
import TinyLsm.SSTable.Lookup
import TinyLsm.SSTable.RoundTrip
import TinyLsm.Serving
import TinyLsm.Sessions
import TinyLsm.SettledKeys
import TinyLsm.SizeAccounting
import TinyLsm.Steps
import TinyLsm.Text
import TinyLsm.ThrowingWrite
import TinyLsm.Unflushed
import TinyLsm.Wakeup
import TinyLsm.Wal
import TinyLsm.WalRecord
import TinyLsm.WellFormed
