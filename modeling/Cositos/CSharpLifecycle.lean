/-
The messages and the reducer of the C# port (`Core.cs`).  A buffer list that is
`null` is an empty one here; a value of static type `Dictionary` is a dict.
-/
import Cositos.Documents

namespace Cositos

namespace CSharp

open Value Protocol

/-! ### Messages -/

/-- `ImmutableFields`. -/
def immutableFields (version : String) : Bindings :=
  [(.str "_model_module", .str "anywidget"),
    (.str "_model_name", .str "AnyModel"),
    (.str "_model_module_version", .str version),
    (.str "_view_module", .str "anywidget"),
    (.str "_view_name", .str "AnyView"),
    (.str "_view_module_version", .str version),
    (.str "_view_count", .none)]

/-- `BuildCommOpen`, with the default version. -/
def buildCommOpen (state : Bindings) :
    Except CSharpError (Bindings × List Binary × Bindings) := do
  let full := Dict.update (immutableFields anywidgetModuleVersion) state
  let (stripped, paths, buffers) ← removeBuffers (.dict full)
  let data := [(.str "state", stripped), (.str "buffer_paths", bufferPathsField paths)]
  return (data, buffers, [(.str "version", .str version)])

/-- `BuildUpdate`. -/
def buildUpdate (state : Bindings) : Except CSharpError (Bindings × List Binary) := do
  let (stripped, paths, buffers) ← removeBuffers (.dict state)
  let data := [(.str "method", .str "update"), (.str "state", stripped),
    (.str "buffer_paths", bufferPathsField paths)]
  return (data, buffers)

/-- `BuildCustom`. -/
def buildCustom (content : Value) : Bindings :=
  [(.str "method", .str "custom"), (.str "content", content)]

/-- One element under `.Cast<List<object?>>()`; `null` can be cast. -/
def castPath : Value → Except CSharpError Value
  | .list segments => .ok (.list segments)
  | .scalar .none => .ok .none
  | _ => .error .invalidCast

/-- `data.GetValueOrDefault("buffer_paths") as List<object?> ?? new List<object?>()`. -/
def bufferPathsOf (data : Bindings) : List Value :=
  match get data "buffer_paths" .none with
  | .list paths => paths
  | _ => []

/-- `ParseMessage`; a method that is no string counts as `null`. -/
def parseMessage : Value → Except CSharpError Message
  | .dict data =>
      match get data "method" .none with
      | .str "update" => do
          let paths ← (bufferPathsOf data).mapM castPath
          return .update (field data "state" (.dict [])) (.list paths)
      | .str "request_state" => .ok .requestState
      | .str "custom" => .ok (.custom (get data "content" .none))
      | .str method => .ok (.ignored (.str method))
      | _ => .ok (.ignored .none)
  | _ => .error .invalidCast

/-- `PutOne` on a path of a message. -/
def putAt (buf : Binary) (obj : Value) (path : List Value) : Except CSharpError Value :=
  putOne obj (path.map Value.segment) buf

/-- The loop of `PutBuffers` over the paths of a message. -/
def putEach : Value → List Value → List Binary → Except CSharpError Value
  | state, [], _ => .ok state
  | _, _ :: _, [] => .error .argumentOutOfRange
  | state, .list path :: paths, buf :: buffers => do
      let state ← putAt buf state path
      putEach state paths buffers
  | _, .scalar .none :: _, _ :: _ => .error .nullReference
  | _, _ :: _, _ :: _ => .error .invalidCast

/-- The state of an inbound `update` with its buffers put in:
`new Dictionary<string, object?>((Dictionary<string, object?>)upd.State!)`, then
`PutBuffers`. -/
def mergeUpdate (state bufferPaths : Value) (buffers : List Binary) :
    Except CSharpError Bindings := do
  let dictionary ← castDictionary state
  match dictionary with
  | none => .error .argumentNull
  | some kvs =>
      match bufferPaths with
      | .list paths => do
          let merged ← putEach (.dict kvs) paths buffers
          return merged.bindings
      | _ => .error .invalidCast

/-- The C# port.  An `InvalidOperationException` is known by its message. -/
def csharp : Port CSharpError where
  immutableFields := immutableFields anywidgetModuleVersion
  buildCommOpen := buildCommOpen
  buildUpdate := buildUpdate
  parseMessage := parseMessage
  mergeUpdate := mergeUpdate
  runtimeError := .argument

/-! ### The reducer -/

/-- `ReduceOpen`. -/
def reduceOpen (phase : Phase) (currentState : Bindings)
    (capabilities : TransportCapabilities) : Except CSharpError (Phase × List Effect) :=
  if phase = .unopened ∨ phase = .closed then do
    let full := Dict.update (immutableFields anywidgetModuleVersion) currentState
    let (data, buffers, metadata) ← buildCommOpen full
    let effects := [.send { msgType := .commOpen, data, buffers, metadata }]
    return (.opened, if capabilities.supportsReceive then effects ++ [.listen] else effects)
  else
    .ok (.opened, [])

/-- `ReduceSendState`. -/
def reduceSendState (phase : Phase) (include? : Option (List Key))
    (currentState : Bindings) : Except CSharpError (Phase × List Effect) :=
  if phase ≠ .opened then
    .ok (phase, [.error "send_state() requires an open comm; call open() first"])
  else do
    let state := match include? with
      | none => Dict.update (immutableFields anywidgetModuleVersion) currentState
      | some keys => currentState.filter fun kv => keys.contains kv.1
    let (data, buffers) ← buildUpdate state
    return (phase, [.send { msgType := .commMsg, data, buffers }])

/-- `ReduceSendCustom`. -/
def reduceSendCustom (phase : Phase) (content : Value) (buffers : List Binary)
    (capabilities : TransportCapabilities) : Phase × List Effect :=
  if phase ≠ .opened then
    (phase, [.error "send_custom() requires an open comm; call open() first"])
  else if !capabilities.supportsCustom then
    (phase, [.error "custom messages are not supported by this transport"])
  else if !capabilities.supportsBuffers && !buffers.isEmpty then
    (phase, [.error "buffers are not supported by this transport"])
  else
    (phase, [.send { msgType := .commMsg, data := buildCustom content, buffers }])

/-- `ReduceInbound`. -/
def reduceInbound (phase : Phase) (message : Value) (buffers : List Binary)
    (currentState : Bindings) (capabilities : TransportCapabilities) :
    Except CSharpError (Phase × List Effect) :=
  if phase ≠ .opened then
    .ok (phase, [])
  else do
    match ← parseMessage message with
    | .update state bufferPaths =>
        let state ← mergeUpdate state bufferPaths buffers
        return (phase, [.applyState state])
    | .requestState =>
        if !capabilities.supportsRequestState then
          return (phase, [])
        else
          reduceSendState phase none currentState
    | .custom content => return (phase, [.invokeCustom content buffers])
    | .ignored _ => return (phase, [])

/-- `ReduceClose`. -/
def reduceClose (phase : Phase) : Phase × List Effect :=
  if phase = .opened then (.closed, [.send { msgType := .commClose, data := [] }])
  else (phase, [])

/-- `Lifecycle.Reduce`, on an event of the six types. -/
def reduce (phase : Phase) (event : Event) (currentState : Bindings)
    (capabilities : TransportCapabilities) : Except CSharpError (Phase × List Effect) :=
  match event with
  | .openComm => reduceOpen phase currentState capabilities
  | .sendState include? => reduceSendState phase include? currentState
  | .sendCustom content buffers => .ok (reduceSendCustom phase content buffers capabilities)
  | .inbound message buffers => reduceInbound phase message buffers currentState capabilities
  | .closeComm => .ok (reduceClose phase)
  | .commIdAssigned _ => .ok (.opened, [])

/-- The reducer is the common one, with the C# functions in it. -/
theorem reduce_eq (phase : Phase) (event : Event) (currentState : Bindings)
    (capabilities : TransportCapabilities) :
    reduce phase event currentState capabilities =
      csharp.reduce phase event currentState capabilities := by
  cases event with
  | openComm =>
      cases phase with
      | opened => rfl
      | unopened | closed =>
          simp only [reduce, reduceOpen, Port.reduce, Port.reduceOpen, csharp, reduceCtorEq,
            or_false, false_or, if_true]
          cases capabilities.supportsReceive <;> rfl
  | sendState include? => rfl
  | sendCustom content buffers =>
      simp only [reduce, Port.reduce, reduceSendCustom, Port.reduceSendCustom]
      split_ifs <;> rfl
  | inbound message buffers =>
      by_cases hphase : phase = .opened
      · subst hphase
        cases hmessage : parseMessage message with
        | error e =>
            have hport : csharp.parseMessage message = .error e := hmessage
            simp only [reduce, reduceInbound, Port.reduce, Port.reduceInbound, hmessage, hport]
            rfl
        | ok parsed =>
            rw [Port.reduce, csharp.reduceInbound_opened hmessage]
            simp only [reduce, reduceInbound, hmessage, ne_eq, not_true_eq_false, if_false]
            cases parsed <;> rfl
      · simp [reduce, reduceInbound, Port.reduce, Port.reduceInbound, hphase]
  | closeComm =>
      by_cases hphase : phase = .opened <;>
        simp [reduce, Port.reduce, reduceClose, Port.reduceClose, hphase]
  | commIdAssigned id => rfl

end CSharp

end Cositos
