/-
A front-end `Model` and an open Python `WidgetShell` joined by two FIFO channels
(`MemoryChannel` in `channels.js`; a comm in Jupyter).  The shell's `get_state`
reads a host store, its `set_state` merges into it.
-/
import Cositos.Replicas
import Cositos.Sessions
import Cositos.Wire

namespace Cositos

open Front

/-! ### The system -/

/-- A transport that puts the messages it is handed on a queue. -/
def queueTransport : Transport PyError (List Send) where
  send message queue := (none, queue ++ [message])
  onMessage queue := queue
  commId _ := ""

/-- The host side: the store and the shell.  The shell's transport is the queue
of messages on their way to the front end. -/
structure Kernel where
  store : Bindings
  shell : Shell PyError (List Send)

namespace Kernel

/-- The states that a call handed to `set_state`. -/
def applied (trace : List (Exchange PyError)) : List Bindings :=
  trace.filterMap fun
    | .applied state => some state
    | _ => none

/-- The shell of a widget on that transport with all callbacks. -/
abbrev setup (capabilities : TransportCapabilities) : Setup PyError (List Send) :=
  Shell.pythonSetup queueTransport capabilities true true

/-- A `set_state` that makes no calls of its own. -/
def setState : Shell.Code PyError (List Send) := fun shell => (.returned, shell)

/-- Merge into the store what a call handed to `set_state`. -/
def merge (store : Bindings) : Outcome PyError × Shell PyError (List Send) →
    Outcome PyError × Kernel
  | (outcome, shell) =>
      (outcome, { store := (applied shell.trace).foldl Dict.update store, shell })

/-- The shell with nothing on record. -/
def untraced (kernel : Kernel) : Shell PyError (List Send) := { kernel.shell with trace := [] }

/-- A call of the shell whose `get_state` reads the store. -/
def invoke (capabilities : TransportCapabilities) (kernel : Kernel) (call : Shell.Call) :
    Outcome PyError × Kernel :=
  merge kernel.store
    (Shell.invoke (setup capabilities) (.plain setState (.ok kernel.store)) call kernel.untraced)

end Kernel

/-- Both parties and the queue of messages on their way to the host.  The code
keeps no record of the keys `unpublished`, written by the host since it last
sent them. -/
structure TwoParty where
  model : Model
  toHost : List Outbound
  kernel : Kernel
  unpublished : List Key

namespace TwoParty

/-- The messages on their way to the front end. -/
abbrev toFront (s : TwoParty) : List Send := s.kernel.shell.transport

/-- What can happen: calls of the front end's and the host's code, and
deliveries by the channels. -/
inductive Action
  | set (key : String) (value : Value)
  | saveChanges
  | requestState
  | hostWrite (key : String) (value : Value)
  | sendState (include? : Option (List Key))
  | deliverToHost
  | deliverToFront

/-- The model after a message came in.  When `#receive` throws, it does so
before it changes the model. -/
def hear (model : Model) (message : Send) : Model :=
  match model.receive (parsed (.dict message.data)) message.buffers with
  | .ok (model, _) => model
  | .error _ => model

variable (capabilities : TransportCapabilities)

def step (s : TwoParty) : Action → TwoParty
  | .set key value => { s with model := (s.model.set key value).1 }
  | .saveChanges =>
      let (model, message?) := s.model.saveChanges
      { s with model, toHost := s.toHost ++ message?.toList }
  | .requestState => { s with toHost := s.toHost ++ [Model.requestState] }
  | .hostWrite key value =>
      { s with
        kernel := { s.kernel with store := Dict.set s.kernel.store (.str key) value }
        unpublished := .str key :: s.unpublished }
  | .sendState include? =>
      let sent := Lifecycle.selected include? s.kernel.store
      match s.kernel.invoke capabilities (.sendState include?) with
      | (.returned, kernel) =>
          { s with kernel, unpublished := s.unpublished.filter fun key => key ∉ Dict.keys sent }
      | (_, kernel) => { s with kernel }
  | .deliverToHost =>
      match s.toHost with
      | [] => s
      | (data, buffers) :: toHost =>
          { s with
            kernel := (s.kernel.invoke capabilities (.inbound (stringified (.dict data)) buffers)).2
            toHost }
  | .deliverToFront =>
      match s.toFront with
      | [] => s
      | message :: toFront =>
          { s with
            model := hear s.model message
            kernel := { s.kernel with shell := { s.kernel.shell with transport := toFront } } }

/-- A fresh model and an open shell, with empty queues. -/
def start (initialState store : Bindings) : TwoParty where
  model := Model.new initialState
  toHost := []
  kernel := { store, shell := { transport := [], phase := .opened, listening := true } }
  unpublished := []

/-- The system after some actions. -/
def run (s : TwoParty) (actions : List Action) : TwoParty := actions.foldl (step capabilities) s

end TwoParty

/-! ### Calls of the open shell -/

namespace Kernel

open Lifecycle

variable {capabilities : TransportCapabilities} {kernel : Kernel}

/-- The update message about a state. -/
def updateSend (fields : Bindings) : Send where
  msgType := .commMsg
  data := updateData fields
  buffers := payloadBuffers fields

/-- The kernel after its open shell sent these messages and merged these states. -/
structure After (kernel : Kernel) (sent : List Send) (merged : List Bindings) (kernel' : Kernel) :
    Prop where
  phase : kernel'.shell.phase = .opened
  queue : kernel'.shell.transport = kernel.shell.transport ++ sent
  store : kernel'.store = merged.foldl Dict.update kernel.store

section Execute

variable {event : Event} {shell : Shell PyError (List Send)}
  (hphase : shell.phase = .opened)

include hphase

theorem execute_eq (store : Bindings) :
    Shell.execute (setup capabilities) setState event store shell =
      match reduce .opened event store capabilities with
      | .error e => (.raised e, shell)
      | .ok (phase, effects) =>
          Shell.execEffects (setup capabilities) setState effects { shell with phase } := by
  have hreduce : (setup capabilities).port.reduce shell.phase event store
      (setup capabilities).capabilities = reduce .opened event store capabilities := by
    rw [hphase]
    rfl
  rw [Shell.execute, hreduce]
  cases reduce .opened event store capabilities <;> rfl

theorem execute_sends {store : Bindings} {message : Send} (htype : message.msgType = .commMsg)
    (h : reduce .opened event store capabilities = .ok (.opened, [.send message])) :
    Shell.execute (setup capabilities) setState event store shell =
      (.returned, { shell with
        transport := shell.transport ++ [message]
        trace := shell.trace ++ [.sent message none] }) := by
  rw [execute_eq hphase, h]
  simp [Shell.execEffects, Shell.execOne, Shell.pythonSetup, queueTransport, Shell.record, htype,
    hphase]

theorem execute_applies {store state : Bindings}
    (h : reduce .opened event store capabilities = .ok (.opened, [.applyState state])) :
    Shell.execute (setup capabilities) setState event store shell =
      (.returned, { shell with trace := shell.trace ++ [.applied state] }) := by
  rw [execute_eq hphase, h]
  simp [Shell.execEffects, Shell.execOne, Shell.pythonSetup, Shell.record, setState, hphase]

theorem execute_skips {store : Bindings}
    (h : reduce .opened event store capabilities = .ok (.opened, [])) :
    Shell.execute (setup capabilities) setState event store shell = (.returned, shell) := by
  rw [execute_eq hphase, h]
  obtain ⟨transport, phase, modelId, listening, trace, overtaken⟩ := shell
  obtain rfl : phase = .opened := hphase
  rfl

theorem execute_raises {store : Bindings} {e : PyError}
    (h : reduce .opened event store capabilities = .error e) :
    Shell.execute (setup capabilities) setState event store shell = (.raised e, shell) := by
  rw [execute_eq hphase, h]

end Execute

/-- The `get_state` of a kernel only reads the store. -/
theorem executeWith_store (capabilities : TransportCapabilities) (kernel : Kernel)
    (event : Event) :
    Shell.executeWith (setup capabilities) (.plain setState (.ok kernel.store)) event
        kernel.untraced =
      Shell.execute (setup capabilities) setState event kernel.store kernel.untraced :=
  Shell.executeWith_plain (setup capabilities) setState event (.ok kernel.store) kernel.untraced

/-- The wire carries what the open shell sends: the selected state, unless it
nests too deep. -/
theorem invoke_sendState (capabilities : TransportCapabilities)
    (hphase : kernel.shell.phase = .opened)
    (hwire : OnWire (.dict kernel.store)) (include? : Option (List Key)) :
    ((Value.dict (selected include? kernel.store)).nesting ≤ Buffers.maxDepth ∧
      ∃ kernel', kernel.invoke capabilities (.sendState include?) = (.returned, kernel') ∧
        After kernel [updateSend (selected include? kernel.store)] [] kernel') ∨
    (Buffers.maxDepth < (Value.dict (selected include? kernel.store)).nesting ∧
      ∃ e kernel', kernel.invoke capabilities (.sendState include?) = (.raised e, kernel') ∧
        After kernel [] [] kernel') := by
  have huntraced : kernel.untraced.phase = .opened := hphase
  have hcall : kernel.invoke capabilities (.sendState include?) =
      merge kernel.store (Shell.execute (setup capabilities) setState (.sendState include?)
        kernel.store kernel.untraced) :=
    congrArg (merge kernel.store) (executeWith_store capabilities kernel _)
  by_cases hnesting : (Value.dict (selected include? kernel.store)).nesting ≤ Buffers.maxDepth
  · have hreduce : reduce .opened (.sendState include?) kernel.store capabilities =
        .ok (.opened, [.send (updateSend (selected include? kernel.store))]) :=
      reduceSendState_ok ⟨kernel.store, hwire.wf⟩ include? hnesting
    rw [hcall, execute_sends huntraced rfl hreduce]
    exact Or.inl ⟨hnesting, _, rfl, hphase, rfl, rfl⟩
  · obtain ⟨path, hreduce⟩ := reduceSendState_too_deep ⟨kernel.store, hwire.wf⟩ include?
      (Nat.lt_of_not_le hnesting)
    have hreduce' : reduce .opened (.sendState include?) kernel.store capabilities =
        .error (.nesting path) := hreduce
    rw [hcall, execute_raises huntraced hreduce']
    exact Or.inr ⟨Nat.lt_of_not_le hnesting, _, _, rfl, hphase, (List.append_nil _).symm, rfl⟩

/-- An inbound update is merged into the store. -/
theorem invoke_update (capabilities : TransportCapabilities)
    (hphase : kernel.shell.phase = .opened) {fields : Bindings}
    (hfields : OnWire (.dict fields)) :
    ∃ merged kernel', (kernel.invoke capabilities
        (.inbound (.dict (updateData fields)) (payloadBuffers fields))).2 = kernel' ∧
      OnWire (.dict merged) ∧ Value.dict merged ≈ .dict fields ∧
      After kernel [] [merged] kernel' := by
  have huntraced : kernel.untraced.phase = .opened := hphase
  have hcall : kernel.invoke capabilities
        (.inbound (.dict (updateData fields)) (payloadBuffers fields)) =
      merge kernel.store (Shell.execute (setup capabilities) setState
        (.inbound (.dict (updateData fields)) (payloadBuffers fields))
        kernel.store kernel.untraced) :=
    congrArg (merge kernel.store) (executeWith_store capabilities kernel _)
  obtain ⟨merged, hmerge, hwire, hequiv⟩ := mergeUpdate_updateData hfields
  have hreduce : reduce .opened (.inbound (.dict (updateData fields)) (payloadBuffers fields))
      kernel.store capabilities = .ok (.opened, [.applyState merged]) := by
    have hinbound := reduceInbound_update (parseMessage_updateData fields)
      (payloadBuffers fields) kernel.store capabilities
    rw [hmerge] at hinbound
    exact hinbound
  rw [hcall, execute_applies huntraced hreduce]
  exact ⟨merged, _, rfl, hwire, hequiv, hphase, (List.append_nil _).symm, rfl⟩

/-- An inbound `request_state` is answered like `send_state()`, where the
transport supports it. -/
theorem invoke_requestState (capabilities : TransportCapabilities)
    (hphase : kernel.shell.phase = .opened)
    (hwire : OnWire (.dict kernel.store)) :
    (capabilities.supportsRequestState = true ∧
      (Value.dict (fullState kernel.store)).nesting ≤ Buffers.maxDepth ∧
      After kernel [updateSend (fullState kernel.store)] []
        (kernel.invoke capabilities (.inbound (.dict Model.requestState.1) [])).2) ∨
    (¬ (capabilities.supportsRequestState = true ∧
        (Value.dict (fullState kernel.store)).nesting ≤ Buffers.maxDepth) ∧
      After kernel [] []
        (kernel.invoke capabilities (.inbound (.dict Model.requestState.1) [])).2) := by
  have huntraced : kernel.untraced.phase = .opened := hphase
  have hcall : kernel.invoke capabilities (.inbound (.dict Model.requestState.1) []) =
      merge kernel.store (Shell.execute (setup capabilities) setState
        (.inbound (.dict Model.requestState.1) []) kernel.store kernel.untraced) :=
    congrArg (merge kernel.store) (executeWith_store capabilities kernel _)
  by_cases hcaps : capabilities.supportsRequestState = true
  · have hinbound : reduce .opened (.inbound (.dict Model.requestState.1) []) kernel.store
        capabilities = reduceSendState .opened none kernel.store :=
      reduceInbound_requestState rfl [] kernel.store hcaps
    by_cases hnesting : (Value.dict (fullState kernel.store)).nesting ≤ Buffers.maxDepth
    · have hreduce := reduceSendState_ok ⟨kernel.store, hwire.wf⟩ none hnesting
      rw [hcall, execute_sends huntraced rfl (hinbound.trans hreduce)]
      exact Or.inl ⟨hcaps, hnesting, hphase, rfl, rfl⟩
    · obtain ⟨path, hreduce⟩ := reduceSendState_too_deep ⟨kernel.store, hwire.wf⟩ none
        (Nat.lt_of_not_le hnesting)
      rw [hcall, execute_raises huntraced (hinbound.trans hreduce)]
      exact Or.inr ⟨fun h => hnesting h.2, hphase, (List.append_nil _).symm, rfl⟩
  · have hinbound : reduce .opened (.inbound (.dict Model.requestState.1) []) kernel.store
        capabilities = .ok (.opened, []) := by
      have hopened := reduceInbound_opened (.dict Model.requestState.1) [] kernel.store capabilities
      refine hopened.trans ?_
      have hparse : Protocol.parseMessage (.dict Model.requestState.1) = .requestState := rfl
      simp [hparse, Port.answer, hcaps]
    rw [hcall, execute_skips huntraced hinbound]
    exact Or.inr ⟨fun h => hcaps h.1, hphase, (List.append_nil _).symm, rfl⟩

end Kernel

end Cositos
