import Cositos.Dict
import Cositos.Value
import Cositos.Buffers
import Cositos.Walk
import Cositos.Split
import Cositos.Merge
import Cositos.Protocol
import Cositos.Lifecycle
import Cositos.Json
import Cositos.Payload
import Cositos.Session
import Cositos.Runs
import Cositos.Shell
import Cositos.ShellRuns
import Cositos.Sessions
import Cositos.CommTransport
import Cositos.Julia
import Cositos.Listening
import Cositos.Base64
import Cositos.Serialize
import Cositos.Builtins
import Cositos.Front
import Cositos.FrontBuffers
import Cositos.Wire
import Cositos.Replicas
import Cositos.TwoParty
import Cositos.Sync
import Cositos.Convergence
import Cositos.Arrivals
import Cositos.Heap
import Cositos.Recursive
import Cositos.Paths
import Cositos.CSharp
import Cositos.Clojure
import Cositos.Languages
import Cositos.Documents
import Cositos.Portability
import Cositos.Alike
import Cositos.Reducers
import Cositos.Restored
import Cositos.Redump
import Cositos.Targets
import Cositos.Identity
import Cositos.RCore
import Cositos.RWire
import Cositos.RMerge
import Cositos.Refusals
import Cositos.PortRefusals
import Cositos.RRefusals
import Cositos.Rejections
import Cositos.Inbound
import Cositos.Histories
import Cositos.Emitter
import Cositos.Views
import Cositos.Saves
import Cositos.Overwrites
import Cositos.CSharpLoads
import Cositos.InPlace
import Cositos.Envelopes
import Cositos.References
import Cositos.Controls
import Cositos.Clay
import Cositos.JsonLiterals
import Cositos.JsonText
import Cositos.JsonValues
import Cositos.Scripts
import Cositos.Embed
import Cositos.EmbedLoads
import Cositos.Facade
import Cositos.Widgets
import Cositos.ScriptData
import Cositos.JsonScripts
import Cositos.Pluto
import Cositos.Lockstep
import Cositos.CSharpLifecycle
import Cositos.CSharpReducer
import Cositos.Updates
import Cositos.Routines
import Cositos.Reentry
import Cositos.Peers
import Cositos.Bonds
import Cositos.Broadcasts
import Cositos.Notebook
import Cositos.Counters
import Cositos.CounterRuns
import Cositos.Hosted
import Cositos.RShellRuns
import Cositos.RDocuments
import Cositos.JuliaControls
