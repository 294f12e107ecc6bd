import WsServer.Views
import WsServer.Frames
import WsServer.Registry
import WsServer.Clients
import WsServer.Wiring
import WsServer.Delivery
import WsServer.Ordering
import WsServer.Tenants
import WsServer.Ready
import WsServer.Closing
import WsServer.IpPermits
import WsServer.Permits
import WsServer.Accounts
import WsServer.Identity
import WsServer.Gauge
import WsServer.Drops
import WsServer.Turns
import WsServer.Worded
import WsServer.Labels
import WsServer.Blind
import WsServer.Senders
import WsServer.Lib.Isolation
import WsServer.Quotas
import WsServer.Buckets
import WsServer.Reaping
import WsServer.Reaped
import WsServer.Volume
import WsServer.ClientIp
import WsServer.Starvation
import WsServer.Envelopes
import WsServer.Canonical
import WsServer.IpCap
import WsServer.NotFound
import WsServer.Gate
import WsServer.Refusals
import WsServer.Formats
import WsServer.Tokens
import WsServer.Verifier
import WsServer.Lib.MessagePack
import WsServer.Lib.Stream
import WsServer.WebClient
import WsServer.Decoding
import WsServer.Shown
import WsServer.ClientView
import WsServer.Drain
import WsServer.Socket
import WsServer.Pipeline
import WsServer.Timers
import WsServer.Audience
import WsServer.Publishing
import WsServer.Lib.Hub
import WsServer.Refinement
import WsServer.Directs
import WsServer.Backlog
