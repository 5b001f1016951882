import Ccos.ColdIndex.Store
import Ccos.Memory.Caches
import Ccos.Memory.Eviction
import Ccos.Session.Sidecar
import Ccos.Session.Federation
import Ccos.Compress.Reversible
import Ccos.Candidate.Findings
import Ccos.Candidate.Gate
import Ccos.Candidate.Binding
import Ccos.Forge.Failover
import Ccos.Kv.Durable
import Ccos.Region.Replay
import Ccos.License.SingleSeat
import Ccos.License.Endpoints
import Ccos.Session.Synced
import Ccos.Memory.Converge
import Ccos.Query.Intervene
import Ccos.Session.Feedback
import Ccos.Log.Reconstruct
import Ccos.Memory.SymbolKeys
import Ccos.Session.Pressure
import Ccos.Memory.Tiers
import Ccos.ColdIndex.RoundTrip
import Ccos.Compress.Lzss
import Ccos.Sanitize.Defang
import Ccos.Compress.Temporaries
import Ccos.Query.Cone
import Ccos.Region.Partition
import Ccos.Dgm.Locate
import Ccos.Dgm.Resume
import Ccos.License.Token
import Ccos.Forge.Best
import Ccos.Forge.Weights
import Ccos.Scheduler.Budgets
import Ccos.Migrate.Relationships
import Ccos.Scirust.RoundTrip
import Ccos.Egress.Consent
import Ccos.Retrieval.Invariance
import Ccos.License.Generate
import Ccos.Consensus.Engine
import Ccos.Guard.Layer
import Ccos.Octasoma.Nested
import Ccos.Octasoma.Kernel
import Ccos.Rsi.Sha256
import Ccos.Session.Granular
import Ccos.Octasoma.Regions
import Ccos.Rsi.ExprParse
import Ccos.Candidate.Corpus
import Ccos.Kv.Codecs
import Ccos.Kv.Kernels
import Ccos.Session.Alignment
import Ccos.Session.Hops
import Ccos.Octasoma.Zoom
import Ccos.Octasoma.Restored
import Ccos.Swarm.Audit
import Ccos.Octasoma.SavedSketch
import Ccos.Forge.Exchange
import Ccos.Octasoma.EmbedCache
