import AnimusCore.Cluster.Proposals
import AnimusCore.Cluster.StateMachine
import AnimusCore.Mpmc.Refinement
import AnimusCore.ShmRing.Losses
import AnimusCore.ShmRing.Reclaim
import AnimusCore.Spsc.Refinement
import AnimusCore.Spmc.Delivery
import AnimusCore.Broadcast.Delivery
import AnimusCore.Cep.Exactness
import AnimusCore.Cep.Membership
import AnimusCore.Engine.Drain
import AnimusCore.Engine.Signals
import AnimusCore.Engine.Recovery
import AnimusCore.Cluster.Wire
import AnimusCore.Cluster.Convergence
import AnimusCore.Itch.Codec
import AnimusCore.Cme.Ingest
import AnimusCore.SharedMemory.Schema
import AnimusCore.DynamicSchema.Dtype
import AnimusCore.Consumer.Takeover
import AnimusCore.Metrics.Sampling
import AnimusCore.Transport.Framing
import AnimusCore.Security.Isolation
import AnimusCore.Security.Audit
import AnimusCore.Fallback.Survival
import AnimusCore.Parity.Agreement
