/-
The pure widget lifecycle reducer of the Python core (`lifecycle.py`).
-/
import Cositos.Protocol

namespace Cositos

/-- `Phase`: `UNOPENED`, `OPEN` and `CLOSED`. -/
inductive Phase
  | unopened
  | opened
  | closed
deriving DecidableEq, Repr

/-- `TransportCapabilities`. -/
structure TransportCapabilities where
  supportsReceive : Bool := true
  supportsRequestState : Bool := true
  supportsCustom : Bool := true
  supportsBuffers : Bool := true
deriving DecidableEq, Repr

/-- The `msg_type` of a comm message. -/
inductive MsgType
  | commOpen
  | commMsg
  | commClose
deriving DecidableEq, Repr

/-- `Send`: a Jupyter comm message for the frontend. -/
structure Send where
  msgType : MsgType
  data : Bindings
  buffers : List Binary := []
  metadata : Option Bindings := none

/-- The effects a shell has to execute. -/
inductive Effect
  | send (message : Send)
  | listen
  | applyState (state : Bindings)
  | invokeCustom (content : Value) (buffers : List Binary)
  | error (message : String)

/-- The events of the reducer: `Open`, `SendState`, `SendCustom`, `Inbound`,
`Close` and `CommIdAssigned`. -/
inductive Event
  | openComm
  | sendState (include? : Option (List Key))
  | sendCustom (content : Value) (buffers : List Binary)
  | inbound (message : Value) (buffers : List Binary)
  | closeComm
  | commIdAssigned (id : String)

/-- What a language port of the core supplies to its reducer. -/
structure Port (ε : Type) where
  immutableFields : Bindings
  buildCommOpen : Bindings → Except ε (Bindings × List Binary × Bindings)
  buildUpdate : Bindings → Except ε (Bindings × List Binary)
  parseMessage : Value → Except ε Protocol.Message
  mergeUpdate : Value → Value → List Binary → Except ε Bindings
  runtimeError : String → ε

namespace Port

variable {ε : Type} (port : Port ε)

/-- `_reduce_open`. -/
def reduceOpen (phase : Phase) (currentState : Bindings)
    (capabilities : TransportCapabilities) : Except ε (Phase × List Effect) :=
  match phase with
  | .unopened | .closed => do
      let (data, buffers, metadata) ←
        port.buildCommOpen (Dict.update port.immutableFields currentState)
      let effects := [.send { msgType := .commOpen, data, buffers, metadata }]
      if capabilities.supportsReceive then
        return (.opened, effects ++ [.listen])
      else
        return (.opened, effects)
  | .opened => .ok (.opened, [])

/-- `_reduce_send_state`. -/
def reduceSendState (phase : Phase) (include? : Option (List Key))
    (currentState : Bindings) : Except ε (Phase × List Effect) :=
  if phase ≠ .opened then
    .ok (phase, [.error "send_state() requires an open comm; call open() first"])
  else do
    let state :=
      match include? with
      | none => Dict.update port.immutableFields currentState
      | some keys => currentState.filter fun kv => keys.contains kv.1
    let (data, buffers) ← port.buildUpdate state
    return (phase, [.send { msgType := .commMsg, data, buffers }])

/-- `_reduce_send_custom`. -/
def reduceSendCustom (phase : Phase) (content : Value) (buffers : List Binary)
    (capabilities : TransportCapabilities) : Except ε (Phase × List Effect) :=
  if phase ≠ .opened then
    .ok (phase, [.error "send_custom() requires an open comm; call open() first"])
  else if !capabilities.supportsCustom then
    .ok (phase, [.error "custom messages are not supported by this transport"])
  else if !capabilities.supportsBuffers && !buffers.isEmpty then
    .ok (phase, [.error "buffers are not supported by this transport"])
  else
    .ok (phase, [.send {
      msgType := .commMsg
      data := Protocol.buildCustom content
      buffers := buffers }])

/-- `_reduce_inbound`. -/
def reduceInbound (phase : Phase) (message : Value) (buffers : List Binary)
    (currentState : Bindings) (capabilities : TransportCapabilities) :
    Except ε (Phase × List Effect) :=
  if phase ≠ .opened then
    .ok (phase, [])
  else do
    match ← port.parseMessage message with
    | .update state bufferPaths =>
        let merged ← port.mergeUpdate state bufferPaths buffers
        return (phase, [.applyState merged])
    | .requestState =>
        if !capabilities.supportsRequestState then
          return (phase, [])
        else
          port.reduceSendState phase none currentState
    | .custom content => return (phase, [.invokeCustom content buffers])
    | .ignored _ => return (phase, [])

/-- `_reduce_close`. -/
def reduceClose (phase : Phase) : Except ε (Phase × List Effect) :=
  if phase = .opened then
    .ok (.closed, [.send { msgType := .commClose, data := [] }])
  else
    .ok (phase, [])

/-- `reduce`. -/
def reduce (phase : Phase) (event : Event) (currentState : Bindings)
    (capabilities : TransportCapabilities) : Except ε (Phase × List Effect) :=
  match event with
  | .openComm => port.reduceOpen phase currentState capabilities
  | .sendState include? => port.reduceSendState phase include? currentState
  | .sendCustom content buffers => reduceSendCustom phase content buffers capabilities
  | .inbound message buffers =>
      port.reduceInbound phase message buffers currentState capabilities
  | .closeComm => reduceClose phase
  | .commIdAssigned _ => .ok (.opened, [])

/-! ### What a step can do -/

/-- The answer to a parsed message on an open comm. -/
def answer (parsed : Protocol.Message) (buffers : List Binary) (currentState : Bindings)
    (capabilities : TransportCapabilities) : Except ε (Phase × List Effect) :=
  match parsed with
  | .update state bufferPaths => do
      let merged ← port.mergeUpdate state bufferPaths buffers
      return (.opened, [.applyState merged])
  | .requestState =>
      if !capabilities.supportsRequestState then .ok (.opened, [])
      else port.reduceSendState .opened none currentState
  | .custom content => .ok (.opened, [.invokeCustom content buffers])
  | .ignored _ => .ok (.opened, [])

theorem reduceInbound_opened {message : Value} {parsed : Protocol.Message}
    (hmessage : port.parseMessage message = .ok parsed) (buffers : List Binary)
    (currentState : Bindings) (capabilities : TransportCapabilities) :
    port.reduceInbound .opened message buffers currentState capabilities =
      port.answer parsed buffers currentState capabilities := by
  simp only [reduceInbound, hmessage, ne_eq, not_true_eq_false, if_false]
  cases parsed <;> rfl

theorem reduceInbound_closed {phase : Phase} (hphase : phase ≠ .opened) (message : Value)
    (buffers : List Binary) (currentState : Bindings) (capabilities : TransportCapabilities) :
    port.reduceInbound phase message buffers currentState capabilities = .ok (phase, []) := by
  simp [reduceInbound, hphase]

/-- The events refused outside an open comm. -/
def requiresOpen : Event → Bool
  | .sendState _ | .sendCustom _ _ => true
  | _ => false

/-- What a reducer may answer to an event: the new phase and the effects. -/
inductive Moves (capabilities : TransportCapabilities) :
    Phase → Event → Phase → List Effect → Prop
  | opens {phase : Phase} {message : Send} (hphase : phase ≠ .opened)
      (htype : message.msgType = .commOpen) :
      Moves capabilities phase .openComm .opened
        (.send message :: if capabilities.supportsReceive then [.listen] else [])
  | closes {message : Send} (htype : message.msgType = .commClose) :
      Moves capabilities .opened .closeComm .closed [.send message]
  | sends {event : Event} {message : Send}
      (hevent : event ≠ .openComm ∧ event ≠ .closeComm) (htype : message.msgType = .commMsg) :
      Moves capabilities .opened event .opened [.send message]
  | applies {message : Value} {buffers : List Binary} {state : Bindings} :
      Moves capabilities .opened (.inbound message buffers) .opened [.applyState state]
  | invokes {message content : Value} {buffers received : List Binary} :
      Moves capabilities .opened (.inbound message buffers) .opened
        [.invokeCustom content received]
  | refuses {phase : Phase} {event : Event} {text : String}
      (hevent : requiresOpen event = true) : Moves capabilities phase event phase [.error text]
  | skips {phase : Phase} {event : Event} (hevent : requiresOpen event = false)
      (hopen : event = .openComm → phase = .opened)
      (hclose : event = .closeComm → phase ≠ .opened) :
      Moves capabilities phase event phase []
  | adopts {phase : Phase} {id : String} :
      Moves capabilities phase (.commIdAssigned id) .opened []

variable {port}

theorem bind_eq_ok_iff {α β : Type} {x : Except ε α} {f : α → Except ε β} {b : β} :
    x >>= f = .ok b ↔ ∃ a, x = .ok a ∧ f a = .ok b := by
  cases x <;> simp [bind, Except.bind]

theorem moves_reduceOpen {phase phase' : Phase} {currentState : Bindings}
    {capabilities : TransportCapabilities} {effects : List Effect}
    (h : port.reduceOpen phase currentState capabilities = .ok (phase', effects)) :
    Moves capabilities phase .openComm phase' effects := by
  by_cases hphase : phase = .opened
  · subst hphase
    cases h
    exact .skips rfl (by simp) (by simp)
  · have hbuild : ∃ data buffers metadata, (phase', effects) = (.opened,
        .send { msgType := .commOpen, data, buffers, metadata := some metadata } ::
          if capabilities.supportsReceive then [.listen] else []) := by
      cases phase with
      | opened => exact absurd rfl hphase
      | unopened | closed =>
          obtain ⟨⟨data, buffers, metadata⟩, _, heq⟩ := bind_eq_ok_iff.mp h
          refine ⟨data, buffers, metadata, ?_⟩
          cases hreceive : capabilities.supportsReceive <;>
            simp [hreceive, pure, Except.pure] at heq <;> simp [heq]
    obtain ⟨data, buffers, metadata, heq⟩ := hbuild
    cases heq
    exact .opens hphase rfl

theorem moves_reduceSendState {event : Event}
    (hevent : event ≠ .openComm ∧ event ≠ .closeComm) {include? : Option (List Key)}
    {phase' : Phase} {currentState : Bindings} {capabilities : TransportCapabilities}
    {effects : List Effect}
    (h : port.reduceSendState .opened include? currentState = .ok (phase', effects)) :
    Moves capabilities .opened event phase' effects := by
  obtain ⟨⟨data, buffers⟩, _, heq⟩ := bind_eq_ok_iff.mp h
  cases heq
  exact .sends hevent rfl

theorem moves_reduceInbound {phase phase' : Phase} {message : Value} {buffers : List Binary}
    {currentState : Bindings} {capabilities : TransportCapabilities} {effects : List Effect}
    (h : port.reduceInbound phase message buffers currentState capabilities =
      .ok (phase', effects)) :
    Moves capabilities phase (.inbound message buffers) phase' effects := by
  by_cases hphase : phase = .opened
  · subst hphase
    cases hmessage : port.parseMessage message with
    | error e => simp [reduceInbound, hmessage, bind, Except.bind] at h
    | ok parsed =>
        rw [port.reduceInbound_opened hmessage] at h
        cases parsed with
        | update state bufferPaths =>
            obtain ⟨merged, _, heq⟩ := bind_eq_ok_iff.mp h
            cases heq
            exact .applies
        | requestState =>
            simp only [answer] at h
            by_cases hcaps : (!capabilities.supportsRequestState) = true
            · rw [if_pos hcaps] at h
              cases h
              exact .skips rfl (by simp) (by simp)
            · rw [if_neg hcaps] at h
              exact moves_reduceSendState (by simp) h
        | custom content =>
            cases h
            exact .invokes
        | ignored method =>
            cases h
            exact .skips rfl (by simp) (by simp)
  · rw [port.reduceInbound_closed hphase] at h
    cases h
    exact .skips rfl (by simp) (by simp)

theorem moves_reduceSendCustom {phase phase' : Phase} {content : Value}
    {buffers : List Binary} {capabilities : TransportCapabilities} {effects : List Effect}
    (h : reduceSendCustom (ε := ε) phase content buffers capabilities = .ok (phase', effects)) :
    Moves capabilities phase (.sendCustom content buffers) phase' effects := by
  unfold reduceSendCustom at h
  split_ifs at h with hphase hcustom hbuffers
  · cases h
    exact .refuses rfl
  · cases h
    exact .refuses rfl
  · cases h
    exact .refuses rfl
  · cases h
    rw [not_not.mp hphase]
    exact .sends (by simp) rfl

/-- Every answer of the reducer is one of these moves. -/
theorem reduce_moves {phase phase' : Phase} {event : Event} {currentState : Bindings}
    {capabilities : TransportCapabilities} {effects : List Effect}
    (h : port.reduce phase event currentState capabilities = .ok (phase', effects)) :
    Moves capabilities phase event phase' effects := by
  cases event with
  | openComm => exact moves_reduceOpen h
  | sendState include? =>
      by_cases hphase : phase = .opened
      · subst hphase
        exact moves_reduceSendState (by simp) h
      · simp [reduce, reduceSendState, hphase] at h
        obtain ⟨rfl, rfl⟩ := h
        exact .refuses rfl
  | sendCustom content buffers => exact moves_reduceSendCustom h
  | inbound message buffers => exact moves_reduceInbound h
  | closeComm =>
      by_cases hphase : phase = .opened
      · subst hphase
        cases h
        exact .closes rfl
      · simp [reduce, reduceClose, hphase] at h
        obtain ⟨rfl, rfl⟩ := h
        exact .skips rfl (by simp) (fun _ => hphase)
  | commIdAssigned id =>
      cases h
      exact .adopts

/-- A comm id that was assigned has no effects. -/
theorem reduce_commIdAssigned (phase : Phase) (id : String) (currentState : Bindings)
    (capabilities : TransportCapabilities) :
    port.reduce phase (.commIdAssigned id) currentState capabilities = .ok (.opened, []) := rfl

end Port

/-! ### The Python reducer -/

namespace Lifecycle

/-- `_model_identity`. -/
def modelIdentity (version : String := "~0.11.*") : Bindings :=
  [(.str "_model_module", .str "anywidget"),
    (.str "_model_name", .str "AnyModel"),
    (.str "_model_module_version", .str version)]

/-- `_view_identity`. -/
def viewIdentity (version : String := "~0.11.*") : Bindings :=
  [(.str "_view_module", .str "anywidget"),
    (.str "_view_name", .str "AnyView"),
    (.str "_view_module_version", .str version),
    (.str "_view_count", .none)]

/-- `_immutable_fields`. -/
def immutableFields (version : String := "~0.11.*") : Bindings :=
  Dict.update (modelIdentity version) (viewIdentity version)

/-- The state of an inbound `update` with its buffers put in:
`state = dict(message.state); put_buffers(state, message.buffer_paths, buffers)`. -/
def mergeUpdate (state bufferPaths : Value) (buffers : List Binary) :
    Except PyError Bindings := do
  let state ← state.dictOf
  let bufferPaths ← bufferPaths.iterate
  let merged ← Buffers.putBuffers (.dict state) bufferPaths buffers
  return merged.bindings

/-- The Python port. -/
def python : Port PyError where
  immutableFields := immutableFields
  buildCommOpen := Protocol.buildCommOpen
  buildUpdate := Protocol.buildUpdate
  parseMessage message := .ok (Protocol.parseMessage message)
  mergeUpdate := mergeUpdate
  runtimeError := .runtimeError

/-- `_reduce_open`. -/
def reduceOpen (phase : Phase) (currentState : Bindings)
    (capabilities : TransportCapabilities) : Except PyError (Phase × List Effect) :=
  python.reduceOpen phase currentState capabilities

/-- `_reduce_send_state`. -/
def reduceSendState (phase : Phase) (include? : Option (List Key))
    (currentState : Bindings) : Except PyError (Phase × List Effect) :=
  python.reduceSendState phase include? currentState

/-- `_reduce_send_custom`. -/
def reduceSendCustom (phase : Phase) (content : Value) (buffers : List Binary)
    (capabilities : TransportCapabilities) : Except PyError (Phase × List Effect) :=
  Port.reduceSendCustom phase content buffers capabilities

/-- `_reduce_inbound`. -/
def reduceInbound (phase : Phase) (message : Value) (buffers : List Binary)
    (currentState : Bindings) (capabilities : TransportCapabilities) :
    Except PyError (Phase × List Effect) :=
  python.reduceInbound phase message buffers currentState capabilities

/-- `_reduce_close`. -/
def reduceClose (phase : Phase) : Except PyError (Phase × List Effect) :=
  Port.reduceClose phase

/-- `reduce`. -/
def reduce (phase : Phase) (event : Event) (currentState : Bindings)
    (capabilities : TransportCapabilities) : Except PyError (Phase × List Effect) :=
  python.reduce phase event currentState capabilities

theorem reduce_eq (phase : Phase) (event : Event) (currentState : Bindings)
    (capabilities : TransportCapabilities) :
    reduce phase event currentState capabilities =
      match event with
      | .openComm => reduceOpen phase currentState capabilities
      | .sendState include? => reduceSendState phase include? currentState
      | .sendCustom content buffers => reduceSendCustom phase content buffers capabilities
      | .inbound message buffers =>
          reduceInbound phase message buffers currentState capabilities
      | .closeComm => reduceClose phase
      | .commIdAssigned _ => .ok (.opened, []) := by
  cases event <;> rfl

theorem reduceOpen_opened (currentState : Bindings) (capabilities : TransportCapabilities) :
    reduceOpen .opened currentState capabilities = .ok (.opened, []) := rfl

theorem reduceSendState_closed {phase : Phase} (hphase : phase ≠ .opened)
    (include? : Option (List Key)) (currentState : Bindings) :
    reduceSendState phase include? currentState =
      .ok (phase, [.error "send_state() requires an open comm; call open() first"]) :=
  if_pos hphase

theorem reduceInbound_closed {phase : Phase} (hphase : phase ≠ .opened) (message : Value)
    (buffers : List Binary) (currentState : Bindings) (capabilities : TransportCapabilities) :
    reduceInbound phase message buffers currentState capabilities = .ok (phase, []) :=
  python.reduceInbound_closed hphase message buffers currentState capabilities

theorem reduceInbound_opened (message : Value) (buffers : List Binary)
    (currentState : Bindings) (capabilities : TransportCapabilities) :
    reduceInbound .opened message buffers currentState capabilities =
      python.answer (Protocol.parseMessage message) buffers currentState capabilities :=
  python.reduceInbound_opened rfl buffers currentState capabilities

theorem reduceInbound_update {message state bufferPaths : Value}
    (hmessage : Protocol.parseMessage message = .update state bufferPaths)
    (buffers : List Binary) (currentState : Bindings) (capabilities : TransportCapabilities) :
    reduceInbound .opened message buffers currentState capabilities = do
      let merged ← mergeUpdate state bufferPaths buffers
      return (.opened, [.applyState merged]) := by
  rw [reduceInbound_opened, hmessage]
  rfl

/-- A `request_state` is answered like `send_state()`. -/
theorem reduceInbound_requestState {message : Value}
    (hmessage : Protocol.parseMessage message = .requestState) (buffers : List Binary)
    (currentState : Bindings) {capabilities : TransportCapabilities}
    (hcaps : capabilities.supportsRequestState = true) :
    reduceInbound .opened message buffers currentState capabilities =
      reduceSendState .opened none currentState := by
  rw [reduceInbound_opened, hmessage, Port.answer]
  simp [hcaps, reduceSendState]

end Lifecycle

end Cositos
