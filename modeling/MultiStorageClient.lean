import MultiStorageClient.AttributeFilter
import MultiStorageClient.AttributeFilterOrder
import MultiStorageClient.BatchRetry
import MultiStorageClient.ByteCodec
import MultiStorageClient.ByteOrder
import MultiStorageClient.Cache
import MultiStorageClient.CacheInterleaving
import MultiStorageClient.CacheRead
import MultiStorageClient.CacheReads
import MultiStorageClient.CachedFiles
import MultiStorageClient.CachedFilesDisk
import MultiStorageClient.CachedFilesKept
import MultiStorageClient.CachedFilesMapped
import MultiStorageClient.CachedFilesWaiters
import MultiStorageClient.Channel
import MultiStorageClient.CheckedArith
import MultiStorageClient.ClientDeletes
import MultiStorageClient.ClientReads
import MultiStorageClient.ConfigIncludes
import MultiStorageClient.ConfigMerge
import MultiStorageClient.ConfigPaths
import MultiStorageClient.ConfigValue
import MultiStorageClient.CredentialsProvider
import MultiStorageClient.CredentialsRuns
import MultiStorageClient.DataCache
import MultiStorageClient.DataCacheAlloc
import MultiStorageClient.DataCacheDisk
import MultiStorageClient.DataCacheInv
import MultiStorageClient.DataCacheLrus
import MultiStorageClient.DataCacheOps
import MultiStorageClient.DataCacheReads
import MultiStorageClient.DataCacheWaiters
import MultiStorageClient.DownloadFiles
import MultiStorageClient.Eviction
import MultiStorageClient.FileTreeEntryNames
import MultiStorageClient.FileTreeQueued
import MultiStorageClient.FileTreeRmDirs
import MultiStorageClient.FileTreeSteps
import MultiStorageClient.FileTreeUnmounts
import MultiStorageClient.Fnmatch
import MultiStorageClient.Formula
import MultiStorageClient.ImmutableDict
import MultiStorageClient.InodePages
import MultiStorageClient.IsoTime
import MultiStorageClient.JsonText
import MultiStorageClient.KeyedWrites
import MultiStorageClient.LexInterpolate
import MultiStorageClient.LinkedList
import MultiStorageClient.ListRecursive
import MultiStorageClient.Listing
import MultiStorageClient.ListingSpec
import MultiStorageClient.LockFreeReadsWhole
import MultiStorageClient.LockOrder
import MultiStorageClient.ManifestFormats
import MultiStorageClient.ManifestMetadata
import MultiStorageClient.ManifestParquet
import MultiStorageClient.ManifestPartFiles
import MultiStorageClient.ManifestPartPaths
import MultiStorageClient.ManifestPersistence
import MultiStorageClient.ManifestReplay
import MultiStorageClient.ManifestRuns
import MultiStorageClient.ManifestStore
import MultiStorageClient.ManifestSymlinks
import MultiStorageClient.ManifestTreeBounds
import MultiStorageClient.ManifestTrees
import MultiStorageClient.ManifestWorkers
import MultiStorageClient.MergeNoOverwrite
import MultiStorageClient.MetricsReader
import MultiStorageClient.MetricsReaderEnds
import MultiStorageClient.MetricsReaderRuns
import MultiStorageClient.MultipartBytes
import MultiStorageClient.MultipartChunkSize
import MultiStorageClient.MultipartFile
import MultiStorageClient.ObjectMetadata
import MultiStorageClient.OnLists
import MultiStorageClient.OuterJoin
import MultiStorageClient.PageDecoders
import MultiStorageClient.Paging
import MultiStorageClient.PartialMaps
import MultiStorageClient.PathMapping
import MultiStorageClient.PosixAgreement
import MultiStorageClient.PosixListing
import MultiStorageClient.PosixPath
import MultiStorageClient.PrefixExpanderRuns
import MultiStorageClient.Producer
import MultiStorageClient.ProducerOrder
import MultiStorageClient.ProducerPlan
import MultiStorageClient.ProducerTargets
import MultiStorageClient.Prog
import MultiStorageClient.PyDict
import MultiStorageClient.PyFloat
import MultiStorageClient.PyStr
import MultiStorageClient.RamBackend
import MultiStorageClient.RamListings
import MultiStorageClient.RangeSplits
import MultiStorageClient.RemoteFile
import MultiStorageClient.ReplicaManager
import MultiStorageClient.Returns
import MultiStorageClient.Run
import MultiStorageClient.Sections
import MultiStorageClient.Shutdown
import MultiStorageClient.SingleFlight
import MultiStorageClient.Slice
import MultiStorageClient.SortedMap
import MultiStorageClient.SparseFile
import MultiStorageClient.StorageClient
import MultiStorageClient.SymlinkChains
import MultiStorageClient.SymlinkTarget
import MultiStorageClient.SyncManager
import MultiStorageClient.SyncMirror
import MultiStorageClient.SyncPaths
import MultiStorageClient.SyncRuns
import MultiStorageClient.SyncTermination
import MultiStorageClient.SyncTotals
import MultiStorageClient.SyncWorker
import MultiStorageClient.TaskPool
import MultiStorageClient.TreeKeys
import MultiStorageClient.UrlParse
import MultiStorageClient.RamStore
