/-
The reducer and the shell of the R port (`core.R`).  R evaluates an argument where it is first
used, so that `get_state` is called inside of the reducer, and only for a message about the
state; it may use the shell itself, as the callbacks of the host may.
-/
import Cositos.Envelopes
import Cositos.Sessions

namespace Cositos

/-- What R code stops with: an error of the core, the message of an error effect, or what the
host and the transport stop with. -/
inductive Stop
  | core (e : RError)
  | effect (message : String)
  | foreign (message : String)

/-- One exchange between the shell and its surroundings. -/
inductive RExchange
  | asked
  | balked
  | sent (message : Send) (stopped : Option Stop)
  | listened
  | applied (state : RObject)
  | invoked (content : RObject) (buffers : List Binary)

/-- The environment of `WidgetShell`.  `trace` records the exchanges so far, `balked` where
`get_state`, or the message that is made of its answer, stopped; the code keeps no such record. -/
structure RShell (τ : Type) where
  transport : τ
  phase : Phase := .unopened
  modelId : String := ""
  listening : Bool := false
  trace : List RExchange := []

namespace RShell

open R

/-! ### The reducer -/

/-- What `parse_message` returns. -/
inductive Message
  | update (state bufferPaths : RObject)
  | requestState
  | custom (content : RObject)
  | ignored (method : RObject)

/-- `if (name %in% names(data)) data[[name]] else list()`. -/
def getOr (data : RObject) (name : String) : Except RError RObject :=
  if hasName data name then getOne data (.name name) else .ok (.list [])

def parseMessage (data : RObject) : Except RError Message := do
  let method ← getOne data (.name "method")
  match method with
  | .atom (.str "update") => do
      let state ← getOr data "state"
      let bufferPaths ← getOr data "buffer_paths"
      return .update state bufferPaths
  | .atom (.str "request_state") => return .requestState
  | .atom (.str "custom") => do
      let content ← getOne data (.name "content")
      return .custom content
  | method => return .ignored method

/-- The effects. -/
inductive Effect
  | send (message : Send)
  | listen
  | applyState (state : RObject)
  | invokeCustom (content : RObject) (buffers : List Binary)
  | error (message : String)

/-- The events. -/
inductive Event
  | openComm
  | sendState (include? : Option (List Key))
  | sendCustom (content : Value) (buffers : List Binary)
  | inbound (message : RObject) (buffers : List Binary)
  | closeComm
  | commIdAssigned (id : String)

/-- What `reduce` does with the promise `current_state`: it answers without it, or forces it, and
then once. -/
inductive Answer
  | made (answer : Except RError (Phase × List Effect))
  | awaits (answer : Value → Except RError (Phase × List Effect))

def ofEffect : Cositos.Effect → Effect
  | .send message => .send message
  | .listen => .listen
  | .applyState state => .applyState (Value.dict state).toR
  | .invokeCustom content buffers => .invokeCustom content.toR buffers
  | .error message => .error message

/-- An answer about the state. -/
def ofAnswer (answer : Except RError (Phase × List Cositos.Effect)) :
    Except RError (Phase × List Effect) :=
  answer.map fun (phase, effects) => (phase, effects.map ofEffect)

/-- `.reduce_open`. -/
def reduceOpen (phase : Phase) (capabilities : TransportCapabilities) : Answer :=
  if phase = .unopened ∨ phase = .closed then
    .awaits fun currentState => ofAnswer (R.reduceOpen phase currentState capabilities)
  else
    .made (.ok (.opened, []))

/-- `.reduce_send_state`. -/
def reduceSendState (phase : Phase) (include? : Option (List Key)) : Answer :=
  if phase ≠ .opened then
    .made (.ok (phase, [.error "send_state() requires an open comm; call open() first"]))
  else
    .awaits fun currentState => ofAnswer (R.reduceSendState phase include? currentState)

/-- `.reduce_send_custom`. -/
def reduceSendCustom (phase : Phase) (content : Value) (buffers : List Binary)
    (capabilities : TransportCapabilities) : Phase × List Effect :=
  if phase ≠ .opened then
    (phase, [.error "send_custom() requires an open comm; call open() first"])
  else if !capabilities.supportsCustom then
    (phase, [.error "custom messages are not supported by this transport"])
  else if !capabilities.supportsBuffers && 0 < buffers.length then
    (phase, [.error "buffers are not supported by this transport"])
  else
    (phase, [.send { msgType := .commMsg, data := Protocol.buildCustom content, buffers }])

/-- The state that an update brings. -/
def mergeUpdate (state bufferPaths : RObject) (buffers : List Binary) : Except RError RObject :=
  if 0 < (elements bufferPaths).length then
    putBuffers state ((elements bufferPaths).map pathOf) buffers
  else
    .ok state

/-- `.reduce_inbound`. -/
def reduceInbound (phase : Phase) (message : RObject) (buffers : List Binary)
    (capabilities : TransportCapabilities) : Answer :=
  if phase ≠ .opened then
    .made (.ok (phase, []))
  else
    match parseMessage message with
    | .error e => .made (.error e)
    | .ok (.update state bufferPaths) =>
        .made ((mergeUpdate state bufferPaths buffers).map fun state =>
          (phase, [.applyState state]))
    | .ok .requestState =>
        if !capabilities.supportsRequestState then .made (.ok (phase, []))
        else reduceSendState phase none
    | .ok (.custom content) => .made (.ok (phase, [.invokeCustom content buffers]))
    | .ok (.ignored _) => .made (.ok (phase, []))

/-- `.reduce_close`. -/
def reduceClose (phase : Phase) : Phase × List Effect :=
  if phase = .opened then (.closed, [.send { msgType := .commClose, data := [] }])
  else (phase, [])

def reduce (capabilities : TransportCapabilities) (phase : Phase) : Event → Answer
  | .openComm => reduceOpen phase capabilities
  | .sendState include? => reduceSendState phase include?
  | .sendCustom content buffers =>
      .made (.ok (reduceSendCustom phase content buffers capabilities))
  | .inbound message buffers => reduceInbound phase message buffers capabilities
  | .closeComm => .made (.ok (reduceClose phase))
  | .commIdAssigned _ => .made (.ok (.opened, []))

/-! ### The shell -/

/-- What a `WidgetShell` is built with and never changes. -/
structure Setup (τ : Type) where
  transport : Transport Stop τ
  capabilities : TransportCapabilities := {}
  hasSetState : Bool := true
  hasOnCustom : Bool := true

variable {τ : Type}

/-- A piece of code that uses the shell. -/
abbrev Code (τ : Type) := RShell τ → Outcome Stop × RShell τ

/-- The host during a call: what `get_state` does before it returns the state, and what the
callback of the call does. -/
structure Host (τ : Type) where
  asked : Code τ
  getState : Value
  callback : Code τ

def record (shell : RShell τ) (exchange : RExchange) : RShell τ :=
  { shell with trace := shell.trace ++ [exchange] }

variable (setup : Setup τ)

/-- The comm-id feedback after a `comm_open`: the reducer answers `.OPEN` without effects. -/
def adoptCommId : Code τ := fun shell =>
  let cid := setup.transport.commId shell.transport
  if cid = "" then
    (.returned, shell)
  else
    let shell := { shell with modelId := cid }
    match reduce setup.capabilities shell.phase (.commIdAssigned cid) with
    | .made (.ok (phase, _)) => (.returned, { shell with phase })
    | .made (.error e) => (.raised (.core e), shell)
    | .awaits _ => (.returned, shell)

/-- `exec_one`, where `callback` is the code that a callback, or the transport's `on_message`,
goes on to run. -/
def execOne (callback : Code τ) : Effect → Code τ
  | .send message => fun shell =>
      let (stopped, transport) := setup.transport.send message shell.transport
      let shell := { shell with transport }.record (.sent message stopped)
      match stopped with
      | some e => (.raised e, shell)
      | none => if message.msgType = .commOpen then adoptCommId setup shell else (.returned, shell)
  | .listen => fun shell =>
      if shell.listening then
        (.returned, shell)
      else
        match callback ({ shell with
            transport := setup.transport.onMessage shell.transport }.record .listened) with
        | (.returned, shell) => (.returned, { shell with listening := true })
        | stopped => stopped
  | .applyState state => fun shell =>
      if setup.hasSetState then callback (shell.record (.applied state)) else (.returned, shell)
  | .invokeCustom content buffers => fun shell =>
      if setup.hasOnCustom then callback (shell.record (.invoked content buffers))
      else (.returned, shell)
  | .error message => fun shell => (.raised (.effect message), shell)

/-- The loop of `execute` over the effects. -/
def execEffects (callback : Code τ) : List Effect → Code τ
  | [] => fun shell => (.returned, shell)
  | effect :: effects => fun shell =>
      match execOne setup callback effect shell with
      | (.returned, shell) => execEffects callback effects shell
      | stopped => stopped

/-- `execute` with an answer that is there. -/
def execute (callback : Code τ) (answer : Phase × List Effect) : Code τ := fun shell =>
  execEffects setup callback answer.2 { shell with phase := answer.1 }

/-- `execute(reduce(env$phase, event, get_state(), env$capabilities))`: the phase is read before
`get_state` is called. -/
def executeWith (host : Host τ) (event : Event) : Code τ := fun shell =>
  match reduce setup.capabilities shell.phase event with
  | .made (.error e) => (.raised (.core e), shell)
  | .made (.ok answer) => execute setup host.callback answer shell
  | .awaits answer =>
      match host.asked (shell.record .asked) with
      | (.running, shell) => (.running, shell)
      | (.raised e, shell) => (.raised e, shell.record .balked)
      | (.returned, shell) =>
          match answer host.getState with
          | .error e => (.raised (.core e), shell.record .balked)
          | .ok answer => execute setup host.callback answer shell

/-- The public calls, and the delivery of an inbound message. -/
inductive Call
  | openComm
  | sendState (include? : Option (List Key))
  | sendCustom (content : Value) (buffers : List Binary)
  | closeComm
  | inbound (data : RObject) (buffers : List Binary)

def invoke (host : Host τ) : Call → Code τ
  | .openComm => fun shell =>
      if shell.phase = .opened then (.returned, shell)
      else executeWith setup host .openComm shell
  | .sendState include? => executeWith setup host (.sendState include?)
  | .sendCustom content buffers => executeWith setup host (.sendCustom content buffers)
  | .closeComm => executeWith setup host .closeComm
  | .inbound data buffers => executeWith setup host (.inbound data buffers)

/-- Host code: it ends in one of three ways, or makes a call and goes on.  `asked` is what
`get_state` does before it returns `getState`, `callback` what the callback of the call does;
what stops the call is caught, to go on or to stop as `next` says. -/
inductive Script
  | ret
  | stop (e : Stop)
  | wait
  | call (call : Call) (asked : Script) (getState : Value) (callback next : Script)

/-- Code, and unless it is still running more code. -/
def andThen (first next : Code τ) : Code τ := fun shell =>
  match first shell with
  | (.running, shell) => (.running, shell)
  | (_, shell) => next shell

def run : Script → Code τ
  | .ret => fun shell => (.returned, shell)
  | .stop e => fun shell => (.raised e, shell)
  | .wait => fun shell => (.running, shell)
  | .call call asked getState callback next =>
      andThen (invoke setup ⟨run asked, getState, run callback⟩ call) (run next)

/-- A shell as `WidgetShell` returns it. -/
def start (transport : τ) (modelId : String) : RShell τ := { transport, modelId }

end RShell

end Cositos
