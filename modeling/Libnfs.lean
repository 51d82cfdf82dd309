import Libnfs.Transition
import Libnfs.Stream
import Libnfs.ExactlyOnce
import Libnfs.Chunking
import Libnfs.Framing
import Libnfs.ZeroCopyRead
import Libnfs.LinksRuns
import Libnfs.InFlight
import Libnfs.Server
import Libnfs.RpcMsg
import Libnfs.ZdrChain
import Libnfs.ZdrAlloc
import Libnfs.ConnectChain
import Libnfs.TlsSafety
import Libnfs.Pread
import Libnfs.MountDiscovery
import Libnfs.Chdir
import Libnfs.Dispatch
import Libnfs.ZeroCopyWrite
import Libnfs.Nfs3Contract
import Libnfs.Canonical
import Libnfs.Cancel
import Libnfs.Classify
import Libnfs.RpcbindRefines
import Libnfs.TransferSize
import Libnfs.TimeoutScan
import Libnfs.OpenState
import Libnfs.Resolution
import Libnfs.Lookup3Walk
import Libnfs.Lookup3Resolves
import Libnfs.NestedLinks
import Libnfs.Splice
import Libnfs.ExportLoop
import Libnfs.LookupPayload
import Libnfs.OpBuilder
import Libnfs.ParentSplit
import Libnfs.OpenErrors
import Libnfs.Seek
import Libnfs.AttributeSetters
import Libnfs.Readdir
import Libnfs.Nfs3Write
import Libnfs.UrlRoundtrip
import Libnfs.Nfs4Replies
import Libnfs.PublicApi
import Libnfs.SList
import Libnfs.DirPosition
import Libnfs.DirCache
import Libnfs.Mountd
import Libnfs.Getacl
import Libnfs.IovecCursor
import Libnfs.AttributeBounds
import Libnfs.Fattr4
import Libnfs.StatVersions
import Libnfs.UniversalAddress
import Libnfs.RpcbindDb
import Libnfs.OpenVersions
import Libnfs.Tickets
import Libnfs.Alongside
import Libnfs.Matching
import Libnfs.Quiet
import Libnfs.Interleaved
import Libnfs.Arrival
import Libnfs.Routing
import Libnfs.Reordering
import Libnfs.Gathering
import Libnfs.CStrings
import Libnfs.PercentDecoding
import Libnfs.AuthUnix
import Libnfs.Records
import Libnfs.ServerContext
import Libnfs.ServerStream
import Libnfs.Requests
import Libnfs.Conversation
import Libnfs.RemoteCall
import Libnfs.SyncCalls
import Libnfs.NameSessions
import Libnfs.Settled
