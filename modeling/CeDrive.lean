import CeDrive.Forest
import CeDrive.Runs
import CeDrive.OpLog
import CeDrive.Tree
import CeDrive.TreeInvariant
import CeDrive.Convergence
import CeDrive.Names
import CeDrive.Content
import CeDrive.Listing
import CeDrive.Drive
import CeDrive.DriveRun
import CeDrive.Compaction
import CeDrive.Replicas
import CeDrive.Trash
import CeDrive.Digits
import CeDrive.FreshIds
import CeDrive.CompactTree
import CeDrive.CompactContent
import CeDrive.CompactListing
import CeDrive.Lookup
import CeDrive.Placements
import CeDrive.Paths
import CeDrive.Interner
import CeDrive.Vfs
import CeDrive.Creations
import CeDrive.Rename
import CeDrive.Browser
import CeDrive.OrderFree
import CeDrive.DistinctNames
import CeDrive.Logs
import CeDrive.Clock
import CeDrive.Changes
import CeDrive.ChangeFeed
import CeDrive.Writers
import CeDrive.Synced
import CeDrive.WriteBack
import CeDrive.Scopes
import CeDrive.Share
import CeDrive.Register
import CeDrive.LastWriter
import CeDrive.Received
import CeDrive.Reserved
import CeDrive.OsPath
import CeDrive.Download
import CeDrive.InodeOps
import CeDrive.NamedLogs
import CeDrive.PlainNames
import CeDrive.Materialize
import CeDrive.SafeNames
import CeDrive.MaterializeInside
import CeDrive.Relabel
import CeDrive.Mirrored
import CeDrive.Twins
import CeDrive.Disk
import CeDrive.Push
import CeDrive.Settled
import CeDrive.DiskCalls
import CeDrive.RoundTrip
import CeDrive.ListedPaths
import CeDrive.Chains
import CeDrive.WalkedPaths
import CeDrive.Grafts
import CeDrive.PushSteps
import CeDrive.PushIds
import CeDrive.OrderlyDrives
import CeDrive.PushRuns
import CeDrive.PushStages
import CeDrive.PushMatches
import CeDrive.Relocations
import CeDrive.Places
import CeDrive.Capped
import CeDrive.Versions
import CeDrive.Conflicts
import CeDrive.ChildIndex
import CeDrive.Pages
import CeDrive.FeedPages
import CeDrive.Failures
import CeDrive.BufWriter
import CeDrive.DownloadSize
import CeDrive.Interning
import CeDrive.DirPages
import CeDrive.Remount
import CeDrive.InodeTable
import CeDrive.Pieces
import CeDrive.Streaming
import CeDrive.Sparse
import CeDrive.HandleIo
import CeDrive.Postings
import CeDrive.Search
import CeDrive.SearchScan
import CeDrive.Shrink
import CeDrive.BrowserClient
import CeDrive.Mesh
import CeDrive.Audit
import CeDrive.Volumes
import CeDrive.StateFile
import CeDrive.Commands
import CeDrive.CliRun
import CeDrive.TwoDrives
import CeDrive.DriveIndex
import CeDrive.Walks
import CeDrive.Backup
import CeDrive.Restore
import CeDrive.Transfers
import CeDrive.Watch
import CeDrive.Projection
