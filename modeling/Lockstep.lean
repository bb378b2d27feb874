import Lockstep.Config.Toml
import Lockstep.Proofs.CommandFormat
import Lockstep.Proofs.Convergence
import Lockstep.Proofs.Ownership
import Lockstep.Proofs.Preparation
import Lockstep.Proofs.Settling
import Lockstep.Proofs.Batch
import Lockstep.Proofs.Requests
import Lockstep.Proofs.Serial
import Lockstep.Proofs.SnapshotFormat
import Lockstep.Proofs.LockViews
import Lockstep.Proofs.Blocking
import Lockstep.Proofs.LogOrder
import Lockstep.Proofs.Resumption
import Lockstep.Proofs.Isolation
import Lockstep.Proofs.Resolution
import Lockstep.Proofs.Footprint
import Lockstep.Proofs.Listing
import Lockstep.Proofs.Gauges
import Lockstep.Proofs.Limit
import Lockstep.Proofs.Balance
import Lockstep.Proofs.AnswerFormat
import Lockstep.Proofs.Undoing
import Lockstep.Proofs.SingleWrites
import Lockstep.Proofs.Reordering
import Lockstep.OrdMap.Count
import Lockstep.Proofs.FlatTables
import Lockstep.Proofs.Counting
import Lockstep.Proofs.Cadence
import Lockstep.Proofs.Accumulation
