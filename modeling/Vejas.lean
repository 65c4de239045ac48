import Vejas.Bus.Barrier
import Vejas.Cluster.Lease
import Vejas.Connectors.Amqp
import Vejas.Connectors.AmqpSource
import Vejas.Connectors.ExecRpc
import Vejas.Connectors.ExecStream
import Vejas.Connectors.HttpFraming
import Vejas.Connectors.MqGet
import Vejas.Connectors.MqttSink
import Vejas.Connectors.MqttSource
import Vejas.Connectors.Salesforce
import Vejas.Connectors.SapFields
import Vejas.Connectors.SapServer
import Vejas.Connectors.OAuthTokens
import Vejas.Connectors.Sink
import Vejas.Governance.Confinement
import Vejas.Governance.Decisions
import Vejas.Governance.Eviction
import Vejas.Governance.Submissions
import Vejas.Http.Contract
import Vejas.Http.Doors
import Vejas.Http.Gate
import Vejas.Http.Governed
import Vejas.Json.Text
import Vejas.Runtime.Addresses
import Vejas.Runtime.Announcements
import Vejas.Runtime.AtLeastOnce
import Vejas.Runtime.CanaryReads
import Vejas.Runtime.DeadLetters
import Vejas.Runtime.DetectState
import Vejas.Runtime.HotReload
import Vejas.Runtime.Hydration
import Vejas.Runtime.Provision
import Vejas.Runtime.Refusals
import Vejas.Runtime.Replay
import Vejas.Runtime.Rotation
import Vejas.Runtime.SecretsFile
import Vejas.Runtime.Snapshots
import Vejas.Runtime.Stamps
import Vejas.Runtime.Supervision
import Vejas.Runtime.Units
import Vejas.Runtime.Vault
import Vejas.Rust.Exact
import Vejas.Vjs.Actions
import Vejas.Vjs.Brackets
import Vejas.Vjs.Comparing
import Vejas.Vjs.Conditions
import Vejas.Vjs.Frame
import Vejas.Vjs.Holes
import Vejas.Vjs.Located
import Vejas.Vjs.Order
import Vejas.Vjs.Precedence
import Vejas.Vjs.Privacy
import Vejas.Vjs.Programs
import Vejas.Vjs.Reuse
import Vejas.Vjs.Shadow
import Vejas.Vjs.Spans
import Vejas.Vjs.Termination
import Vejas.Vjs.Utf8
