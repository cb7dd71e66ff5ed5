import GlusterFS.Afr.AbortedPreOp
import GlusterFS.Afr.AllFools
import GlusterFS.Afr.EagerTokens
import GlusterFS.Afr.HealEqual
import GlusterFS.Afr.HealLoopLocks
import GlusterFS.Afr.WriteReplies
import GlusterFS.Dht.LayoutSearch
import GlusterFS.Dht.MaximizeOverlap
import GlusterFS.Dht.NameHash
import GlusterFS.Dht.Offsets
import GlusterFS.Dht.RenameResult
import GlusterFS.Dicts.HostileInput
import GlusterFS.Dicts.RoundTrip
import GlusterFS.Fds.FreeList
import GlusterFS.Inodes.Paths
import GlusterFS.Locks.ByteRefinement
import GlusterFS.Locks.EntrylkReplies
import GlusterFS.Locks.InodelkThreads
import GlusterFS.Locks.Ranges
import GlusterFS.Locks.Reservelk
import GlusterFS.Locks.WakeUp
import GlusterFS.Marker.QuotaRemoval
import GlusterFS.MdCache.Attributes
import GlusterFS.PosixAcl.Decision
import GlusterFS.PosixAcl.Xattr
import GlusterFS.QuickRead.Content
import GlusterFS.Quota.UpdateSize
import GlusterFS.Quota.WriteAnswered
import GlusterFS.Rpc.ClientCalls
import GlusterFS.Stripe.Refinement
import GlusterFS.Syncop.SyncLock
import GlusterFS.WriteBehind.Durability
import GlusterFS.WriteBehind.Transit
import GlusterFS.WriteBehind.Transmission
import GlusterFS.WriteBehind.VectorLimit
