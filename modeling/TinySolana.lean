import TinySolana.Foundations.Exec
import TinySolana.Foundations.Ledger
import TinySolana.Foundations.Runs
import TinySolana.LockAccounting
import TinySolana.RootHash
import TinySolana.Freeze
import TinySolana.Isolation
import TinySolana.SignerSoundness
import TinySolana.WritableRecords
import TinySolana.CpiFaithfulness
import TinySolana.LamportRuns
import TinySolana.TokenSupply
import TinySolana.BatchAccounting
import TinySolana.ScheduleOrder
import TinySolana.CommitOrder
import TinySolana.Blockhashes
import TinySolana.RootCommitment
import TinySolana.AccountStores
import TinySolana.StoreRuns
import TinySolana.LoaderAuthority
import TinySolana.Foundations.FirstFit
import TinySolana.Foundations.Simulation
import TinySolana.MalformedIsolation
import TinySolana.Poh
import TinySolana.BlockCost
import TinySolana.ConcurrentBatches
import TinySolana.ProgramCache
import TinySolana.ComputeBudget
import TinySolana.BatchFrame
import TinySolana.TokenAuthority
import TinySolana.WireFormat
import TinySolana.DeployedCode
import TinySolana.ChildBanks
import TinySolana.FaithfulWriteBack
import TinySolana.SystemExactness
import TinySolana.TokenTransfers
import TinySolana.LoaderPayouts
import TinySolana.ReadOnlyAccounts
import TinySolana.BufferMachine
import TinySolana.TokenSetAuthority
import TinySolana.NativePanics
import TinySolana.ParameterPanics
import TinySolana.WritePermission
import TinySolana.RootHashFlush
import TinySolana.BatchCleanup
import TinySolana.NativeAtomicity
import TinySolana.CostRollback
import TinySolana.BatchRecords
import TinySolana.UntouchedAccounts
import TinySolana.PohSlots
import TinySolana.PohService
import TinySolana.Programs.TokenRecords
import TinySolana.Foundations.FixedSize
import TinySolana.Foundations.Failures
import TinySolana.ExecutionErrors
import TinySolana.Preflight
import TinySolana.NodeOutcomes
import TinySolana.NodeClock
import TinySolana.Foundations.Transfers
import TinySolana.ClientPayments
import TinySolana.NodeTasks
import TinySolana.NodeFlush
import TinySolana.ProgramRaces
import TinySolana.BufferUploads
