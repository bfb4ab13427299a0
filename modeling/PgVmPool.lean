import PgVmPool.Exclusion
import PgVmPool.IdleReaper
import PgVmPool.UntrackedReaper
import PgVmPool.Purge
import PgVmPool.Breaker
import PgVmPool.StoreRuns
import PgVmPool.StoreLocks
import PgVmPool.Archives
import PgVmPool.Tracking
import PgVmPool.Janitor
import PgVmPool.SpareReuse
import PgVmPool.OffloadSource
import PgVmPool.Promotion
import PgVmPool.Thaw
import PgVmPool.SchemaPaths
import PgVmPool.DumpUploads
import PgVmPool.PasswordGate
import PgVmPool.DrainBackoff
import PgVmPool.OffloadCap
import PgVmPool.ReadyPg
import PgVmPool.ReclaimCursor
import PgVmPool.Preemption
import PgVmPool.LockMode
import PgVmPool.LocalFiles
import PgVmPool.GuestJobs
import PgVmPool.ArchiveWait
import PgVmPool.GuardBudget
import PgVmPool.PickOrder
import PgVmPool.CredentialLife
import PgVmPool.Multipart
import PgVmPool.StartupPacket
import PgVmPool.Presign
import PgVmPool.AlertWrites
import PgVmPool.StopIdle
import PgVmPool.ReapTarget
import PgVmPool.OrphanSweep
import PgVmPool.BoundIds
import PgVmPool.TlsReload
import PgVmPool.AlertEdges
import PgVmPool.EventWindow
import PgVmPool.DatabaseNames
import PgVmPool.ClientSession
import PgVmPool.LogTail
import PgVmPool.SandboxPages
import PgVmPool.PendingLedger
import PgVmPool.DiskImages
import PgVmPool.InventoryCache
import PgVmPool.Journal
import PgVmPool.Supervisor
