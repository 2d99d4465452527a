/-
The imperative shell (`WidgetShell`) over the reducer of a port, and the runs of
a host program that calls it.  The Python and the Julia shell are the same loop;
whatever `get_state`, the callbacks and the transport do while
the shell calls them is a script.
-/
import Cositos.Lifecycle

namespace Cositos

/-- A transport over its own state: `send`, which may raise, `on_message` and
`comm_id`. -/
structure Transport (ε τ : Type) where
  send : Send → τ → Option ε × τ
  onMessage : τ → τ
  commId : τ → String

/-- What a `WidgetShell` is built with and never changes. -/
structure Setup (ε τ : Type) where
  port : Port ε
  transport : Transport ε τ
  capabilities : TransportCapabilities := {}
  hasSetState : Bool := true
  hasOnCustom : Bool := true

/-- One exchange between the shell and its surroundings. -/
inductive Exchange (ε : Type)
  | sent (message : Send) (raised : Option ε)
  | listened
  | applied (state : Bindings)
  | invoked (content : Value) (buffers : List Binary)

/-- An answer of the reducer that is executed: the phase that `reduce` was given, and the
phase that the answer is stored over. -/
structure Execution where
  event : Event
  read : Phase
  found : Phase

/-- The mutable side of a `WidgetShell`.  `trace` records the exchanges so far, `overtaken`
the executions for which `get_state` had left another phase than `reduce` was given; the
code keeps no such records. -/
structure Shell (ε τ : Type) where
  transport : τ
  phase : Phase := .unopened
  modelId : String := ""
  listening : Bool := false
  trace : List (Exchange ε) := []
  overtaken : List Execution := []

/-- How a piece of code ended.  `running`: the run is looked at while host code
is still being executed. -/
inductive Outcome (ε : Type)
  | returned
  | raised (e : ε)
  | running
deriving DecidableEq, Repr

namespace Shell

variable {ε τ : Type}

/-- A piece of code that uses the shell. -/
abbrev Code (ε τ : Type) := Shell ε τ → Outcome ε × Shell ε τ

/-- Host code that does nothing. -/
def idle : Code ε τ := fun shell => (.returned, shell)

/-- The host during a call: what `get_state` does before it answers, its answer, and what
the callback does. -/
structure Host (ε τ : Type) where
  asked : Code ε τ
  getState : Except ε Bindings
  callback : Code ε τ

/-- A host whose `get_state` only answers. -/
def Host.plain (callback : Code ε τ) (getState : Except ε Bindings) : Host ε τ :=
  ⟨idle, getState, callback⟩

def record (shell : Shell ε τ) (exchange : Exchange ε) : Shell ε τ :=
  { shell with trace := shell.trace ++ [exchange] }

variable (setup : Setup ε τ)

/-- The comm-id feedback after a `comm_open`: adopt the transport's id. -/
def adoptCommId : Code ε τ := fun shell =>
  let cid := setup.transport.commId shell.transport
  if cid = "" then
    (.returned, shell)
  else
    let shell := { shell with modelId := cid }
    match setup.port.reduce shell.phase (.commIdAssigned cid) [] setup.capabilities with
    | .error e => (.raised e, shell)
    -- `CommIdAssigned` comes back without effects, so executing stores the phase
    | .ok (phase, _) => (.returned, { shell with phase })

/-- `_exec_one`, where `host` is the code that a callback, or the transport's
`on_message`, goes on to run. -/
def execOne (host : Code ε τ) : Effect → Code ε τ
  | .send message => fun shell =>
      let (raised, transport) := setup.transport.send message shell.transport
      let shell := { shell with transport }.record (.sent message raised)
      match raised with
      | some e => (.raised e, shell)
      | none =>
          if message.msgType = .commOpen then adoptCommId setup shell else (.returned, shell)
  | .listen => fun shell =>
      if shell.listening then
        (.returned, shell)
      else
        let transport := setup.transport.onMessage shell.transport
        match host ({ shell with transport }.record .listened) with
        | (.returned, shell) => (.returned, { shell with listening := true })
        | stopped => stopped
  | .applyState state => fun shell =>
      if setup.hasSetState then host (shell.record (.applied state)) else (.returned, shell)
  | .invokeCustom content buffers => fun shell =>
      if setup.hasOnCustom then host (shell.record (.invoked content buffers))
      else (.returned, shell)
  | .error message => fun shell => (.raised (setup.port.runtimeError message), shell)

/-- The loop of `_execute` over the effects. -/
def execEffects (host : Code ε τ) : List Effect → Code ε τ
  | [] => fun shell => (.returned, shell)
  | effect :: effects => fun shell =>
      match execOne setup host effect shell with
      | (.returned, shell) => execEffects host effects shell
      | stopped => stopped

/-- `_execute(reduce(self._phase, event, current_state, self._capabilities))`. -/
def execute (host : Code ε τ) (event : Event) (currentState : Bindings) : Code ε τ :=
  fun shell =>
    match setup.port.reduce shell.phase event currentState setup.capabilities with
    | .error e => (.raised e, shell)
    | .ok (phase, effects) => execEffects setup host effects { shell with phase }

/-- An answer to the phase `read` is stored. -/
def store (event : Event) (read phase : Phase) (shell : Shell ε τ) : Shell ε τ :=
  { shell with
    phase
    overtaken := if shell.phase = read then shell.overtaken
      else shell.overtaken ++ [⟨event, read, shell.phase⟩] }

/-- `_execute(reduce(self._phase, event, self._get_state(), self._capabilities))`: the phase
is read before `get_state` is called. -/
def executeWith (host : Host ε τ) (event : Event) : Code ε τ := fun shell =>
  let read := shell.phase
  match host.asked shell with
  | (.returned, shell) =>
      match host.getState with
      | .error e => (.raised e, shell)
      | .ok currentState =>
          match setup.port.reduce read event currentState setup.capabilities with
          | .error e => (.raised e, shell)
          | .ok (phase, effects) =>
              execEffects setup host.callback effects (store event read phase shell)
  | stopped => stopped

/-- `open`. -/
def openComm (host : Host ε τ) : Code ε τ := fun shell =>
  if shell.phase = .opened then (.returned, shell) else executeWith setup host .openComm shell

/-- `send_state`. -/
def sendState (host : Host ε τ) (include? : Option (List Key)) : Code ε τ :=
  executeWith setup host (.sendState include?)

/-- `send_custom`. -/
def sendCustom (host : Host ε τ) (content : Value) (buffers : List Binary) : Code ε τ :=
  executeWith setup host (.sendCustom content buffers)

/-- `close`. -/
def closeComm (host : Code ε τ) : Code ε τ :=
  execute setup host .closeComm []

/-- `_repr_mimebundle_`, its result apart. -/
def reprMimebundle (host : Host ε τ) : Code ε τ := fun shell =>
  if shell.phase = .unopened ∨ shell.phase = .closed then
    openComm setup host shell
  else
    (.returned, shell)

/-- `_handle_inbound`. -/
def handleInbound (host : Host ε τ) (data : Value) (buffers : List Binary) : Code ε τ :=
  fun shell =>
    match setup.port.parseMessage data with
    | .error e => (.raised e, shell)
    | .ok (.ignored _) => (.returned, shell)
    | .ok _ => executeWith setup host (.inbound data buffers) shell

/-- The public calls of a shell, and the delivery of an inbound message. -/
inductive Call
  | openComm
  | sendState (include? : Option (List Key))
  | sendCustom (content : Value) (buffers : List Binary)
  | closeComm
  | reprMimebundle
  | inbound (data : Value) (buffers : List Binary)

/-- One call, with the host that it may ask and call back. -/
def invoke (host : Host ε τ) : Call → Code ε τ
  | .openComm => openComm setup host
  | .sendState include? => sendState setup host include?
  | .sendCustom content buffers => sendCustom setup host content buffers
  | .closeComm => closeComm setup host.callback
  | .reprMimebundle => reprMimebundle setup host
  | .inbound data buffers => handleInbound setup host data buffers

/-- Host code, as far as the shell can tell: it ends in one of three ways, or
makes a call and goes on.  `asked` is what `get_state` does before it answers, `callback`
what the callback of that call does; an exception out of the call is caught, to go on or
to raise as `next` says. -/
inductive Script (ε : Type)
  | ret
  | raise (e : ε)
  | wait
  | call (call : Call) (asked : Script ε) (getState : Except ε Bindings) (callback next : Script ε)

/-- Host code run on a shell. -/
def run : Script ε → Code ε τ
  | .ret => fun shell => (.returned, shell)
  | .raise e => fun shell => (.raised e, shell)
  | .wait => fun shell => (.running, shell)
  | .call call asked getState callback next => fun shell =>
      match invoke setup ⟨run asked, getState, run callback⟩ call shell with
      | (.running, shell) => (.running, shell)
      | (_, shell) => run next shell

/-- `get_state` only answers, from inside callbacks too. -/
def Script.Plain : Script ε → Prop
  | .ret | .raise _ | .wait => True
  | .call _ asked _ callback next => asked = .ret ∧ callback.Plain ∧ next.Plain

/-! ### A `get_state` that only answers -/

theorem store_read (event : Event) (phase : Phase) (shell : Shell ε τ) :
    store event shell.phase phase shell = { shell with phase } := by
  rw [store, if_pos rfl]

theorem executeWith_plain (callback : Code ε τ) (event : Event) (getState : Except ε Bindings)
    (shell : Shell ε τ) :
    executeWith setup (.plain callback getState) event shell =
      match getState with
      | .error e => (.raised e, shell)
      | .ok currentState => execute setup callback event currentState shell := by
  cases getState with
  | error e => rfl
  | ok currentState =>
      simp only [executeWith, Host.plain, idle, execute, store_read]

end Shell

end Cositos
