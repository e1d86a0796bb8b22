import DistributedFileSystem.Library.Transition
import DistributedFileSystem.Library.Posix.Change
import DistributedFileSystem.StorageLayer.DeleteFile
import DistributedFileSystem.Library.PutOnce
import DistributedFileSystem.StorageLayer.ChunkStore
import DistributedFileSystem.StorageLayer.TableSlot
import DistributedFileSystem.StorageLayer.IndexAgreement
import DistributedFileSystem.StorageLayer.ReadBack
import DistributedFileSystem.StorageLayer.HttpMain
import DistributedFileSystem.Master.StorageUnit
import DistributedFileSystem.Library.Positions
import DistributedFileSystem.Master.ReplicaPlacement
import DistributedFileSystem.Master.TcpHandler
import DistributedFileSystem.System.SnapshotView
import DistributedFileSystem.Library.Framing
import DistributedFileSystem.StorageLayer.TcpClient
import DistributedFileSystem.Master.ReadLoop
import DistributedFileSystem.System.MessageStream
import DistributedFileSystem.Client.InsertFile
import DistributedFileSystem.Client.ReadFile
import DistributedFileSystem.Master.ConnectionEntries
import DistributedFileSystem.Master.RoundRobin
import DistributedFileSystem.Client.Reassembly
import DistributedFileSystem.Library.WireFormat
import DistributedFileSystem.StorageLayer.DataPack
import DistributedFileSystem.Master.DataDecode
import DistributedFileSystem.StorageLayer.HttpRun
import DistributedFileSystem.System.ReportDelivery
import DistributedFileSystem.Master.HealthCheckSender
import DistributedFileSystem.StorageLayer.ReceiveLoop
import DistributedFileSystem.System.ProbeStream
import DistributedFileSystem.StorageLayer.NestedNames
import DistributedFileSystem.StorageLayer.DeleteFrame
import DistributedFileSystem.StorageLayer.IndexRemoval
import DistributedFileSystem.StorageLayer.HttpExchange
import DistributedFileSystem.StorageLayer.UploadedFile
import DistributedFileSystem.Client.UploadLog
import DistributedFileSystem.System.Cluster
import DistributedFileSystem.System.InsertThenRead
import DistributedFileSystem.System.RepeatedInsert
import DistributedFileSystem.Master.WriteSelection
import DistributedFileSystem.Library.FirstOccurrences
import DistributedFileSystem.Master.ChunkLocations
import DistributedFileSystem.Master.FileLocations
import DistributedFileSystem.StorageLayer.TableNames
import DistributedFileSystem.StorageLayer.HealthCleanup
import DistributedFileSystem.StorageLayer.RetriedSave
import DistributedFileSystem.Library.Posix.Calls
import DistributedFileSystem.StorageLayer.RemovalCalls
import DistributedFileSystem.StorageLayer.FailedDelete
import DistributedFileSystem.Master.Catalogue
import DistributedFileSystem.Master.ListedOnce
import DistributedFileSystem.Client.RemoveFile
import DistributedFileSystem.Library.Interleaving
import DistributedFileSystem.StorageLayer.UploadFragments
import DistributedFileSystem.Library.Posix.Lexical
import DistributedFileSystem.StorageLayer.ChunkPaths
import DistributedFileSystem.StorageLayer.StoreEscape
import DistributedFileSystem.StorageLayer.RemovedTree
import DistributedFileSystem.StorageLayer.AncestorDirectories
import DistributedFileSystem.StorageLayer.TableMemory
import DistributedFileSystem.Library.HeapCells
import DistributedFileSystem.Library.Simulation
import DistributedFileSystem.StorageLayer.TableLife
import DistributedFileSystem.StorageLayer.TableRuns
import DistributedFileSystem.StorageLayer.SharedMappings
import DistributedFileSystem.StorageLayer.HttpMemory
import DistributedFileSystem.Master.ConnectionTasks
import DistributedFileSystem.System.StreamedReports
import DistributedFileSystem.Library.LockOrder
import DistributedFileSystem.Master.LockUse
import DistributedFileSystem.StorageLayer.FirstKept
import DistributedFileSystem.StorageLayer.HttpStore
import DistributedFileSystem.System.ConcurrentInserts
import DistributedFileSystem.System.FileMap
