import Manvi.Agent.OneWay
import Manvi.Agent.Answered
import Manvi.Agent.Spending
import Manvi.Agent.Bill
import Manvi.Session.TrimSuffix
import Manvi.Session.Store
import Manvi.Session.StoreRace
import Manvi.Session.Prepared
import Manvi.OpenAICompat.CallsApart
import Manvi.OpenAICompat.Verbatim
import Manvi.OpenAICompat.Fabricated
import Manvi.Workflow.Started
import Manvi.Workflow.Once
import Manvi.Workflow.Visual
import Manvi.Workflow.Outputs
import Manvi.Budget.Provider
import Manvi.Transport.Preflight
import Manvi.Serve.Drained
import Manvi.Serve.Flushed
import Manvi.Managed.Stranded
import Manvi.Catalog.Revoked
import Manvi.Computer.ReadBack
import Manvi.Computer.Hidden
import Manvi.DevCouncil.Framing
import Manvi.Fetch.Vetted
import Manvi.Anthropic.Settled
import Manvi.Desktop.Replies
import Manvi.DevCouncil.Untouched
import Manvi.Mcp.OwnReply
import Manvi.Budget.Charged
import Manvi.Transport.Watchdog
import Manvi.OpenAICompat.TypedParam
import Manvi.OpenAICompat.SparedStrings
import Manvi.OpenAICompat.RecoveredText
import Manvi.Agent.Elided
import Manvi.Agent.Reclaimed
import Manvi.Agent.PlanTruth
import Manvi.Mcp.Handshake
import Manvi.Mcp.OneHandshake
import Manvi.Mcp.SoleHandshake
import Manvi.Workflow.Epochs
import Manvi.Workflow.FlowExact
import Manvi.Workflow.Strict
import Manvi.Session.Ledgers
import Manvi.Credentials.Cleaned
import Manvi.DevCouncil.Chunked
import Manvi.DevCouncil.PatchRead
import Manvi.Scan.Memory
import Manvi.Serve.LineFraming
import Manvi.Tools.Activation
import Manvi.DevCouncil.PatchFile
import Manvi.Encoding.Incremental
import Manvi.Terminal.Decode
import Manvi.Terminal.Stable
import Manvi.Terminal.Reader
import Manvi.Terminal.Pastes
import Manvi.Session.RenamedKeys
import Manvi.DevCouncil.FindFiles
import Manvi.Fetch.Normal
import Manvi.Harness.Skills
import Manvi.Render.Wrapped
import Manvi.Render.Halves
import Manvi.Prompt.Account
import Manvi.Core.Lifecycle
import Manvi.Mcp.Writer
import Manvi.Agents.Instances
import Manvi.Render.Display
