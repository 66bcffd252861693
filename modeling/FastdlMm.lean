import FastdlMm.Framework.Table
import FastdlMm.Framework.Text
import FastdlMm.Framework.Words
import FastdlMm.Framework.Calendar
import FastdlMm.Framework.Separated
import FastdlMm.Framework.SlidingWindow
import FastdlMm.Framework.Conformance
import FastdlMm.Framework.VirtualClock
import FastdlMm.Framework.FileTree
import FastdlMm.Framework.RelativePath
import FastdlMm.Framework.TreeWalk
import FastdlMm.Framework.MakeDirectories
import FastdlMm.Framework.Program
import FastdlMm.Framework.Script
import FastdlMm.Limits.RateLimiter
import FastdlMm.Limits.RateTable
import FastdlMm.Limits.RateHistory
import FastdlMm.Limits.RateWindow
import FastdlMm.Limits.RateBlocks
import FastdlMm.Limits.RateAccounting
import FastdlMm.Limits.RateBudget
import FastdlMm.Limits.RateThreads
import FastdlMm.Limits.RateAccounts
import FastdlMm.Limits.RateEntries
import FastdlMm.Limits.Bucket
import FastdlMm.Limits.Durations
import FastdlMm.Limits.BucketThreads
import FastdlMm.Limits.BucketWaits
import FastdlMm.Limits.Shutdown
import FastdlMm.Limits.Leases
import FastdlMm.Limits.LeaseRate
import FastdlMm.Limits.LeaseSharing
import FastdlMm.Files.OpenedFile
import FastdlMm.Files.PathResolver
import FastdlMm.Files.PathAccess
import FastdlMm.Files.Allowlists
import FastdlMm.Files.UrlPath
import FastdlMm.Files.SecureFile
import FastdlMm.Files.OwnUrl
import FastdlMm.Server.Headers
import FastdlMm.Server.RangeGrammar
import FastdlMm.Server.Negotiation
import FastdlMm.Server.EntityTags
import FastdlMm.Server.AcceptEncoding
import FastdlMm.Server.ServeFile
import FastdlMm.Server.ServeFileSpec
import FastdlMm.Server.Conditional
import FastdlMm.Server.Resume
import FastdlMm.Server.Delivery
import FastdlMm.Server.TransferMetrics
import FastdlMm.Server.Throughput
import FastdlMm.Server.SupplyThreads
import FastdlMm.Server.Requests
import FastdlMm.Server.DispatchWorkers
import FastdlMm.Server.Probes
import FastdlMm.Server.TransferAccounting
import FastdlMm.Cache.Artifacts
import FastdlMm.Server.Identities
import FastdlMm.Cache.Operations
import FastdlMm.Cache.Maintain
import FastdlMm.Cache.Compress
import FastdlMm.Cache.GzipMember
import FastdlMm.Cache.CompressionCache
import FastdlMm.Cache.Publication
import FastdlMm.Cache.LookupIdentity
import FastdlMm.Cache.Keys
import FastdlMm.Cache.Bookkeeping
import FastdlMm.Cache.DiskUse
import FastdlMm.Cache.Maintenance
import FastdlMm.Cache.Counters
import FastdlMm.Cache.Keeping
import FastdlMm.Cache.DiskBudget
import FastdlMm.Cache.CounterAccuracy
import FastdlMm.Cache.Eviction
import FastdlMm.Cache.MarkerPath
import FastdlMm.Cache.BuildScan
import FastdlMm.Cache.CachePath
import FastdlMm.Config.ConfigParser
import FastdlMm.Config.ConfigFile
import FastdlMm.Config.DownloadUrl
import FastdlMm.Logging.Logger
import FastdlMm.Logging.LoggerAccounting
import FastdlMm.Logging.LoggerRecovery
import FastdlMm.Logging.Retention
import FastdlMm.Config.ReadConfig
import FastdlMm.Server.RequestLog
import FastdlMm.Server.AccessLog
import FastdlMm.Server.Lifecycle
import FastdlMm.Server.ClientCopy
