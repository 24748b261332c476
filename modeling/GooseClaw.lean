import GooseClaw.Acp.Runs
import GooseClaw.Acp.Spike
import GooseClaw.Channels.Delivery
import GooseClaw.Channels.Evasion
import GooseClaw.Channels.Inbound
import GooseClaw.Channels.Links
import GooseClaw.Channels.Moderation
import GooseClaw.Channels.Outbound
import GooseClaw.Channels.Relay
import GooseClaw.Channels.Rendering
import GooseClaw.Channels.RoundTrip
import GooseClaw.Channels.UrlTokens
import GooseClaw.Found.CharMap
import GooseClaw.Found.Framing
import GooseClaw.Found.Lines
import GooseClaw.Found.Lowercase
import GooseClaw.Found.Machine
import GooseClaw.Found.Pack
import GooseClaw.Found.Pool
import GooseClaw.Found.Program
import GooseClaw.Found.Ranking
import GooseClaw.Found.SortedMap
import GooseClaw.Found.Trace
import GooseClaw.Found.Utf8
import GooseClaw.Found.Versioned
import GooseClaw.Found.Words
import GooseClaw.Gate.Action
import GooseClaw.Gate.Audit
import GooseClaw.Gate.Binding
import GooseClaw.Gate.Handles
import GooseClaw.Gate.Rejections
import GooseClaw.Gate.Rule9
import GooseClaw.Knowledge.Fusion
import GooseClaw.Payments
import GooseClaw.Safety
import GooseClaw.Session.Crash
import GooseClaw.Session.Log
import GooseClaw.Session.Store
import GooseClaw.Text
import GooseClaw.Vault.Answers
import GooseClaw.Vault.Calls
import GooseClaw.Vault.Client
import GooseClaw.Vault.Connection
import GooseClaw.Vault.Correlation
import GooseClaw.Vault.Discipline
import GooseClaw.Vault.Elsewhere
import GooseClaw.Vault.EndToEnd
import GooseClaw.Vault.Ending
import GooseClaw.Vault.Failure
import GooseClaw.Vault.Fake
import GooseClaw.Vault.Federation
import GooseClaw.Vault.Framing
import GooseClaw.Vault.Guarantees
import GooseClaw.Vault.Handshake
import GooseClaw.Vault.HumanEdits
import GooseClaw.Vault.Journal
import GooseClaw.Vault.JsonText
import GooseClaw.Vault.Laws
import GooseClaw.Vault.Loss
import GooseClaw.Vault.Phase
import GooseClaw.Vault.Posts
import GooseClaw.Vault.Recovery
import GooseClaw.Vault.Refinement
import GooseClaw.Vault.Refusals
import GooseClaw.Vault.Revalidation
import GooseClaw.Vault.Rig
import GooseClaw.Vault.Server
import GooseClaw.Vault.Serving
import GooseClaw.Vault.Stability
import GooseClaw.Vault.Tools
import GooseClaw.Vault.Tracking
import GooseClaw.Vault.Unreachable
import GooseClaw.Vault.Waiting
import GooseClaw.Vault.Wedge
import GooseClaw.Vault.Wire
import GooseClaw.Vendor.Gate
import GooseClaw.Vendor.Places
import GooseClaw.Vendor.Policy
