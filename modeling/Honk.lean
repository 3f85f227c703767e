import Honk.Anytls.Padding
import Honk.Routing.Refinement
import Honk.Codegen.Trace
import Honk.Mux.Padding
import Honk.Nfqueue.Verdicts
import Honk.Nfqueue.Gate
import Honk.Packet.Admission
import Honk.Conntrack.Service
import Honk.Conntrack.Ownership
import Honk.Conntrack.Token
import Honk.Conntrack.Lifetime
import Honk.Group.Cycles
import Honk.Projection.Expiry
import Honk.Projection.Reconcile
import Honk.Shadowsocks.Replay
import Honk.Dns.Accounting
import Honk.Dns.Flight
import Honk.Dns.Lifecycle
import Honk.Dns.Message
import Honk.Dns.Publication
import Honk.Codegen.WellFormed
import Honk.Routing.DnsRoute
import Honk.Routing.Simulate
import Honk.Control.Reload
import Honk.Control.Convergence
import Honk.Control.Budget
import Honk.Routing.Fingerprint
import Honk.Packet.Datagram
import Honk.Quic.Initial
import Honk.Sniffing.Http
import Honk.Shadowsocks.Stream
