import RemoteFileExplorer.ShareLinks
import RemoteFileExplorer.PairProtocol
import RemoteFileExplorer.LiveIndex
import RemoteFileExplorer.UploadQuota
import RemoteFileExplorer.UploadSweeps
import RemoteFileExplorer.IndexRuns
import RemoteFileExplorer.SidecarCalls
import RemoteFileExplorer.TransferPlaces
import RemoteFileExplorer.TransferCancels
import RemoteFileExplorer.PairGrants
import RemoteFileExplorer.TrashRestores
import RemoteFileExplorer.RootSettings
import RemoteFileExplorer.AgentCalls
import RemoteFileExplorer.RecordStores
import RemoteFileExplorer.SyncConvergence
import RemoteFileExplorer.FolderViews
import RemoteFileExplorer.RenameSafety
import RemoteFileExplorer.DuplicateCleanup
import RemoteFileExplorer.AgentCerts
import RemoteFileExplorer.ServerStates
import RemoteFileExplorer.WindowTasks
import RemoteFileExplorer.DeviceKeys
import RemoteFileExplorer.DownloadAttempts
import RemoteFileExplorer.LoginRemovals
import RemoteFileExplorer.PhoneOutcomes
import RemoteFileExplorer.OwnUploads
import RemoteFileExplorer.CsvRows
import RemoteFileExplorer.FollowedFiles
import RemoteFileExplorer.UploadPlans
import RemoteFileExplorer.BackupRollbacks
import RemoteFileExplorer.StoredCollections
import RemoteFileExplorer.InternetAddresses
import RemoteFileExplorer.MoveUndos
import RemoteFileExplorer.FolderCaches
import RemoteFileExplorer.SidecarBreakers
import RemoteFileExplorer.FetchQueues
import RemoteFileExplorer.DirectoryPages
import RemoteFileExplorer.JailChains
import RemoteFileExplorer.OptimisticSaves
import RemoteFileExplorer.OfflineVaults
import RemoteFileExplorer.ListingCaches
import RemoteFileExplorer.FolderWalks
import RemoteFileExplorer.ArchiveExtracts
import RemoteFileExplorer.LocalNames
import RemoteFileExplorer.ChunkGeometry
import RemoteFileExplorer.SearchBounds
import RemoteFileExplorer.IndexQueries
import RemoteFileExplorer.RecentFiles
import RemoteFileExplorer.NameFilters
import RemoteFileExplorer.NameSearches
import RemoteFileExplorer.FrameCuts
import RemoteFileExplorer.Updates
import RemoteFileExplorer.CivilTimes
import RemoteFileExplorer.LimiterChecks
import RemoteFileExplorer.KeystoreGate
import RemoteFileExplorer.MatchCodes
import RemoteFileExplorer.DecodeBudgets
import RemoteFileExplorer.CrashSuspects
import RemoteFileExplorer.SharedRenders
import RemoteFileExplorer.Bitmaps
import RemoteFileExplorer.SortedEntries
import RemoteFileExplorer.Orientations
