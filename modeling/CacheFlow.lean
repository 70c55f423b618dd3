import CacheFlow.Server.Batch
import CacheFlow.Server.StoreLease
import CacheFlow.Server.Server
import CacheFlow.Worker.RoundTrip
import CacheFlow.Worker.Saver
import CacheFlow.Worker.SharedLease
import CacheFlow.Worker.Staging
import CacheFlow.Worker.PushWait
import CacheFlow.Server.Push
import CacheFlow.Server.Protocol
import CacheFlow.Server.ControlClient
import CacheFlow.Vllm.Isolation
import CacheFlow.Connector.Saves
import CacheFlow.Connector.Multi
import CacheFlow.Vllm.HitSafety
import CacheFlow.Vllm.Session
import CacheFlow.Vllm.Reasoning
import CacheFlow.Doca.Buffers
import CacheFlow.Doca.Host
import CacheFlow.Doca.Loads
import CacheFlow.Doca.OffloadManager
import CacheFlow.Doca.PrefixHit
import CacheFlow.Doca.Transfer
import CacheFlow.Offload.Lru
import CacheFlow.Mm.LruOrder
import CacheFlow.Mm.Mirror
import CacheFlow.Shm.Exact
import CacheFlow.Shm.Stable
import CacheFlow.Shm.StoreSafety
import CacheFlow.Connector.Aggregate
import CacheFlow.Connector.Plans
import CacheFlow.Rdma.PostFailure
import CacheFlow.Server.Exclusive
import CacheFlow.Vllm.PrefixClosed
import CacheFlow.Vllm.Rehash
import CacheFlow.Vllm.KvEvents
import CacheFlow.Vllm.Detokenizer
import CacheFlow.Vllm.NgramProposer
