import DistillFs.Foundation.Transition
import DistillFs.Foundation.Conservation
import DistillFs.Backend.AtomicBits
import DistillFs.Backend.ChunkDb.Expiry
import DistillFs.Backend.ChunkDb.Registration
import DistillFs.Backend.ChunkDb.AddChunks
import DistillFs.Backend.ChunkDb.Ledger
import DistillFs.Backend.ChunkDb.Visible
import DistillFs.Backend.ChunkDb.Gc
import DistillFs.Backend.ChunkDb.MakingRoom
import DistillFs.Backend.ChunkDb.OnDisk
import DistillFs.Backend.ChunkDb.Capacity
import DistillFs.Backend.Cache.Concurrent
import DistillFs.Backend.Cache.Reopen
import DistillFs.Backend.Cache.Crash
import DistillFs.Backend.Cache.SingleFlight
import DistillFs.Backend.Cache.ShortFetch
import DistillFs.Backend.Dedup.Transparent
import DistillFs.Backend.Dedup.Resolve
import DistillFs.Backend.Dedup.Idempotent
import DistillFs.Backend.Dedup.Persisted
import DistillFs.Backend.Dedup.Window
import DistillFs.Backend.Dedup.LocalRaw
import DistillFs.Backend.Peer.SessionMatch
import DistillFs.Backend.Peer.SessionClose
import DistillFs.Backend.Peer.ResponseStream
import DistillFs.Backend.Peer.Unregistration
import DistillFs.Backend.Peer.Repair
import DistillFs.Backend.Peer.Candidates
import DistillFs.Backend.Peer.VectoredWrite
import DistillFs.Backend.Peer.SessionPool
import DistillFs.Backend.Peer.Shutdown
import DistillFs.Backend.Peer.Sync
import DistillFs.Backend.Dedup.KeyCodec
import DistillFs.Backend.Dedup.OnDisk
import DistillFs.Image.Nydus
import DistillFs.ChunkWriters
import DistillFs.LogRotation
import DistillFs.Backend.ChunkBounds
import DistillFs.Backend.Peer.SessionPrune
import DistillFs.StoreWorker
import DistillFs.RateLimitedLog
import DistillFs.Backend.Peer.CircuitBreaker
import DistillFs.Foundation.Framing
import DistillFs.Backend.Peer.AcceptLoop
import DistillFs.Backend.Peer.Replies
import DistillFs.Backend.Peer.WireFrames
import DistillFs.Backend.Peer.Exchange
import DistillFs.Backend.Peer.HitHints
import DistillFs.Backend.Peer.FetchChunk
import DistillFs.Foundation.Leases
import DistillFs.Backend.Peer.Discovery
import DistillFs.Backend.Peer.Maintenance
import DistillFs.Image.Raw
import DistillFs.Foundation.Settle
import DistillFs.Image.CachedBlobs
import DistillFs.Backend.Peer.ControlCalls
