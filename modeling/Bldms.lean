import Bldms.Lib.System
import Bldms.Lib.LittleEndian
import Bldms.Lib.BackwardInsert
import Bldms.Lib.CircularScan
import Bldms.Lib.IntrusiveList
import Bldms.Device
import Bldms.Driver
import Bldms.Syscalls
import Bldms.Mount
import Bldms.FileOps
import Bldms.Calls
import Bldms.Invariant
import Bldms.Store
import Bldms.Frame
import Bldms.WearLevelling
import Bldms.CircularChoice
import Bldms.BlockLimit
import Bldms.PutOrder
import Bldms.AllOrNothing
import Bldms.Slots
import Bldms.Getters
import Bldms.ReadSpec
import Bldms.Undisturbed
import Bldms.Remount
import Bldms.ReadReply
import Bldms.Positions
import Bldms.Confinement
import Bldms.EndOfMessages
import Bldms.SessionRuns
import Bldms.DeliveryOrder
import Bldms.WholeMessages
import Bldms.SyscallTable
import Bldms.EntryTable
import Bldms.EntryGrants
import Bldms.Makefs
import Bldms.FormatterAgrees
import Bldms.FormatterSizes
import Bldms.Lifecycle
import Bldms.SingleMount
import Bldms.MountRaces
import Bldms.Teardown
import Bldms.ScanMemory
import Bldms.Lib.RcuList
import Bldms.RcuWalk
import Bldms.RcuSteps
import Bldms.RcuSafety
import Bldms.TableSearch
import Bldms.Lib.WriteBack
import Bldms.CrashRecovery
import Bldms.Lib.Pool
import Bldms.Userland
import Bldms.UserConcurrency
import Bldms.UserTest
import Bldms.Lib.Exchange
import Bldms.SessionMemory
import Bldms.DirOps
import Bldms.Lib.RoundRobin
import Bldms.WearBalance
import Bldms.RemountExact
import Bldms.DurableStore
import Bldms.FailedMount
import Bldms.Ownership
