/-
Two shells in step.  Over reducers that answer alike and transports that behave
alike, the same host code, callbacks that call back included, leads two shells
through the same exchanges; the Julia shell follows the Python shell in this way.
-/
import Cositos.Listening
import Cositos.Reducers
import Cositos.Sessions

namespace Cositos

variable {ε ε' τ τ' : Type}

/-! ### Ports, transports and shells that are alike -/

/-- A message that a shell passes over. -/
def Protocol.Message.isIgnored : Protocol.Message → Bool
  | .ignored _ => true
  | _ => false

/-- Two ports whose reducers give the same answer to the same event. -/
structure Port.Alike (port : Port ε) (port' : Port ε') : Prop where
  reduce : ∀ {v w}, SameState v w → ∀ {event event'}, SameEvent event event' →
    ∀ phase capabilities, Matches SameAnswer (port.reduce phase event v capabilities)
      (port'.reduce phase event' w capabilities)
  parse : ∀ {data data'}, SameMessage data data' →
    Matches (fun parsed parsed' => parsed.isIgnored = parsed'.isIgnored)
      (port.parseMessage (.dict data)) (port'.parseMessage (.dict data'))

/-- Two transports, their states related by `T`: on the same message both raise or
neither does. -/
structure Transport.Alike (T : τ → τ' → Prop) (transport : Transport ε τ)
    (transport' : Transport ε' τ') : Prop where
  raises : ∀ {message message'}, SameEffect (.send message) (.send message') →
    ∀ {t t'}, T t t' →
      (transport.send message t).1.isSome = (transport'.send message' t').1.isSome
  send : ∀ {message message'}, SameEffect (.send message) (.send message') →
    ∀ {t t'}, T t t' → T (transport.send message t).2 (transport'.send message' t').2
  onMessage : ∀ {t t'}, T t t' → T (transport.onMessage t) (transport'.onMessage t')
  commId : ∀ {t t'}, T t t' → transport.commId t = transport'.commId t'

structure Setup.Alike (T : τ → τ' → Prop) (setup : Setup ε τ) (setup' : Setup ε' τ') :
    Prop where
  port : setup.port.Alike setup'.port
  transport : setup.transport.Alike T setup'.transport
  capabilities : setup.capabilities = setup'.capabilities
  hasSetState : setup.hasSetState = setup'.hasSetState
  hasOnCustom : setup.hasOnCustom = setup'.hasOnCustom

/-- The same end of a piece of code. -/
inductive SameOutcome : Outcome ε → Outcome ε' → Prop
  | returned : SameOutcome .returned .returned
  | raised (e : ε) (e' : ε') : SameOutcome (.raised e) (.raised e')
  | running : SameOutcome .running .running

/-- The same exchange with equal contents. -/
inductive SameExchange : Exchange ε → Exchange ε' → Prop
  | sent {message message' : Send} {raised : Option ε} {raised' : Option ε'}
      (hmessage : SameEffect (.send message) (.send message'))
      (hraised : raised.isSome = raised'.isSome) :
      SameExchange (.sent message raised) (.sent message' raised')
  | listened : SameExchange .listened .listened
  | applied {state state' : Bindings}
      (hstate : (Value.dict state).plain ≈ (Value.dict state').plain) :
      SameExchange (.applied state) (.applied state')
  | invoked {content content' : Value} {buffers buffers' : List Binary}
      (hcontent : content.plain ≈ content'.plain) (hbuffers : raws buffers = raws buffers') :
      SameExchange (.invoked content buffers) (.invoked content' buffers')

/-- Two shells at the same point, with the same exchanges behind them. -/
structure SameShell (T : τ → τ' → Prop) (shell : Shell ε τ) (shell' : Shell ε' τ') : Prop where
  transport : T shell.transport shell'.transport
  phase : shell.phase = shell'.phase
  modelId : shell.modelId = shell'.modelId
  listening : shell.listening = shell'.listening
  trace : List.Forall₂ SameExchange shell.trace shell'.trace

/-- The same end, at shells at the same point. -/
structure SameEnd (T : τ → τ' → Prop) (r : Outcome ε × Shell ε τ)
    (r' : Outcome ε' × Shell ε' τ') : Prop where
  outcome : SameOutcome r.1 r'.1
  shell : SameShell T r.2 r'.2

/-- Two pieces of code that take shells at the same point to the same end. -/
def SameCode (T : τ → τ' → Prop) (f : Shell.Code ε τ) (f' : Shell.Code ε' τ') : Prop :=
  ∀ {shell shell'}, SameShell T shell shell' → SameEnd T (f shell) (f' shell')

/-- The same host for two shells: the same code where it is asked for its state and where it
is called back, and states that read the same. -/
structure SameHost (T : τ → τ' → Prop) (host : Shell.Host ε τ) (host' : Shell.Host ε' τ') :
    Prop where
  asked : SameCode T host.asked host'.asked
  getState : Matches SameState host.getState host'.getState
  callback : SameCode T host.callback host'.callback

/-- The same call for both hosts.  A Julia shell has no display call of its own:
where Python displays the widget, Julia opens it. -/
inductive SameCall : Shell.Call → Shell.Call → Prop
  | openComm : SameCall .openComm .openComm
  | sendState (include? : Option (List Key)) :
      SameCall (.sendState include?) (.sendState include?)
  | sendCustom {content content' : Value} {buffers buffers' : List Binary}
      (hcontent : content.plain ≈ content'.plain) (hbuffers : raws buffers = raws buffers') :
      SameCall (.sendCustom content buffers) (.sendCustom content' buffers')
  | closeComm : SameCall .closeComm .closeComm
  | display : SameCall .reprMimebundle .openComm
  | inbound {data data' : Bindings} {buffers buffers' : List Binary}
      (hmessage : SameMessage data data') (hbuffers : raws buffers = raws buffers') :
      SameCall (.inbound (.dict data) buffers) (.inbound (.dict data') buffers')

/-- Host code that makes the same calls, `get_state` and its callbacks as well, over states
that read the same. -/
inductive SameScript : Shell.Script ε → Shell.Script ε' → Prop
  | ret : SameScript .ret .ret
  | raise (e : ε) (e' : ε') : SameScript (.raise e) (.raise e')
  | wait : SameScript .wait .wait
  | call {call call' : Shell.Call} {getState : Except ε Bindings}
      {getState' : Except ε' Bindings} {asked callback next : Shell.Script ε}
      {asked' callback' next' : Shell.Script ε'} (hcall : SameCall call call')
      (hasked : SameScript asked asked') (hstate : Matches SameState getState getState')
      (hcallback : SameScript callback callback') (hnext : SameScript next next') :
      SameScript (.call call asked getState callback next)
        (.call call' asked' getState' callback' next')

/-! ### One step -/

theorem sameState_nil : SameState [] [] where
  left := by simp [Value.wf_dict_iff]
  right := by simp [Value.wf_dict_iff]
  untupled := Value.untupled_dict (by simp)
  equiv := Setoid.refl _

section InStep

variable {T : τ → τ' → Prop} {setup : Setup ε τ} {setup' : Setup ε' τ'}
  {host : Shell.Code ε τ} {host' : Shell.Code ε' τ'}

theorem SameShell.record {shell : Shell ε τ} {shell' : Shell ε' τ'}
    (h : SameShell T shell shell') {exchange : Exchange ε} {exchange' : Exchange ε'}
    (hexchange : SameExchange exchange exchange') :
    SameShell T (shell.record exchange) (shell'.record exchange') :=
  { h with trace := List.rel_append h.trace (.cons hexchange .nil) }

theorem SameShell.moved {shell : Shell ε τ} {shell' : Shell ε' τ'}
    (h : SameShell T shell shell') {t : τ} {t' : τ'} (ht : T t t') :
    SameShell T { shell with transport := t } { shell' with transport := t' } :=
  ⟨ht, h.phase, h.modelId, h.listening, h.trace⟩

namespace Setup.Alike

variable (hsetup : setup.Alike T setup')

include hsetup

theorem adoptCommId : SameCode T (Shell.adoptCommId setup) (Shell.adoptCommId setup') := by
  intro shell shell' h
  have hcid := hsetup.transport.commId h.transport
  simp only [Shell.adoptCommId, Port.reduce_commIdAssigned, ← hcid]
  split_ifs with hempty
  · exact ⟨.returned, h⟩
  · exact ⟨.returned, { h with phase := rfl, modelId := rfl }⟩

theorem send {message message' : Send} (hmessage : SameEffect (.send message) (.send message')) :
    SameCode T (Shell.execOne setup host (.send message))
      (Shell.execOne setup' host' (.send message')) := by
  intro shell shell' h
  have hraises := hsetup.transport.raises hmessage h.transport
  have hsend := hsetup.transport.send hmessage h.transport
  have htype : message.msgType = message'.msgType := by
    cases hmessage with
    | send htype _ _ => exact htype
  have hsent : SameShell T
      (Shell.record { shell with transport := (setup.transport.send message shell.transport).2 }
        (.sent message (setup.transport.send message shell.transport).1))
      (Shell.record { shell' with
          transport := (setup'.transport.send message' shell'.transport).2 }
        (.sent message' (setup'.transport.send message' shell'.transport).1)) :=
    (h.moved hsend).record (.sent hmessage hraises)
  simp only [Shell.execOne]
  cases hleft : (setup.transport.send message shell.transport).1 with
  | some e =>
      cases hright : (setup'.transport.send message' shell'.transport).1 with
      | none => simp [hleft, hright] at hraises
      | some e' =>
          rw [hleft, hright] at hsent
          exact ⟨.raised e e', hsent⟩
  | none =>
      cases hright : (setup'.transport.send message' shell'.transport).1 with
      | some e' => simp [hleft, hright] at hraises
      | none =>
          rw [hleft, hright] at hsent
          simp only [← htype]
          split_ifs
          · exact hsetup.adoptCommId hsent
          · exact ⟨.returned, hsent⟩

/-- The host code does the same when the shells call it. -/
theorem execOne (hhost : SameCode T host host') {effect effect' : Effect}
    (heffect : SameEffect effect effect') :
    SameCode T (Shell.execOne setup host effect) (Shell.execOne setup' host' effect') := by
  intro shell shell' h
  cases heffect with
  | send htype hmetadata hpayload => exact hsetup.send (.send htype hmetadata hpayload) h
  | listen =>
      simp only [Shell.execOne]
      by_cases hlistening : shell.listening = true
      · rw [if_pos hlistening, if_pos (h.listening ▸ hlistening)]
        exact ⟨.returned, h⟩
      · rw [if_neg hlistening, if_neg (h.listening ▸ hlistening)]
        have hlistened := (h.moved (hsetup.transport.onMessage h.transport)).record .listened
        obtain ⟨houtcome, hafter⟩ := hhost hlistened
        revert houtcome hafter
        rcases host _ with ⟨outcome, after⟩
        rcases host' _ with ⟨outcome', after'⟩
        intro houtcome hafter
        cases houtcome with
        | returned =>
            exact ⟨.returned, hafter.transport, hafter.phase, hafter.modelId, rfl, hafter.trace⟩
        | raised e e' => exact ⟨.raised e e', hafter⟩
        | running => exact ⟨.running, hafter⟩
  | applyState hstate =>
      simp only [Shell.execOne, ← hsetup.hasSetState]
      split_ifs
      · exact hhost (h.record (.applied hstate))
      · exact ⟨.returned, h⟩
  | invokeCustom hcontent hbuffers =>
      simp only [Shell.execOne, ← hsetup.hasOnCustom]
      split_ifs
      · exact hhost (h.record (.invoked hcontent hbuffers))
      · exact ⟨.returned, h⟩
  | error text => exact ⟨.raised _ _, h⟩

theorem execEffects (hhost : SameCode T host host') {effects effects' : List Effect}
    (heffects : List.Forall₂ SameEffect effects effects') :
    SameCode T (Shell.execEffects setup host effects)
      (Shell.execEffects setup' host' effects') := by
  intro shell shell' h
  induction heffects generalizing shell shell' with
  | nil => exact ⟨.returned, h⟩
  | cons heffect _ ih =>
      obtain ⟨houtcome, hafter⟩ := hsetup.execOne hhost heffect h
      simp only [Shell.execEffects]
      revert houtcome hafter
      rcases Shell.execOne setup host _ shell with ⟨outcome, after⟩
      rcases Shell.execOne setup' host' _ shell' with ⟨outcome', after'⟩
      intro houtcome hafter
      cases houtcome with
      | returned => exact ih hafter
      | raised e e' => exact ⟨.raised e e', hafter⟩
      | running => exact ⟨.running, hafter⟩

/-! ### One call -/

theorem execute (hhost : SameCode T host host') {event event' : Event}
    (hevent : SameEvent event event') {v w : Bindings} (hstate : SameState v w) :
    SameCode T (Shell.execute setup host event v) (Shell.execute setup' host' event' w) := by
  intro shell shell' h
  have hanswer := hsetup.port.reduce hstate hevent shell.phase setup.capabilities
  simp only [Shell.execute, ← h.phase, ← hsetup.capabilities]
  revert hanswer
  rcases setup.port.reduce shell.phase event v setup.capabilities with e | ⟨phase, effects⟩ <;>
    rcases setup'.port.reduce shell.phase event' w setup.capabilities with
      e' | ⟨phase', effects'⟩ <;> intro hanswer <;> cases hanswer
  case raises => exact ⟨.raised e e', h⟩
  case returns hanswer =>
    exact hsetup.execEffects hhost hanswer.effects { h with phase := hanswer.phase }

/-- The answers are stored over the phases that `get_state` has left. -/
theorem executeWith {host : Shell.Host ε τ} {host' : Shell.Host ε' τ'}
    (hhost : SameHost T host host') {event event' : Event} (hevent : SameEvent event event') :
    SameCode T (Shell.executeWith setup host event)
      (Shell.executeWith setup' host' event') := by
  intro shell shell' h
  obtain ⟨houtcome, hasked⟩ := hhost.asked h
  have hstate := hhost.getState
  simp only [Shell.executeWith, ← h.phase, ← hsetup.capabilities]
  revert houtcome hasked hstate
  rcases host.asked shell with ⟨outcome, asked⟩
  rcases host'.asked shell' with ⟨outcome', asked'⟩
  rcases host.getState with e | v <;> rcases host'.getState with e' | w <;>
    intro houtcome hasked hstate <;> cases hstate <;> cases houtcome
  case raises.raised | returns.raised => exact ⟨.raised _ _, hasked⟩
  case raises.running | returns.running => exact ⟨.running, hasked⟩
  case raises.returned => exact ⟨.raised e e', hasked⟩
  case returns.returned hstate =>
    have hanswer := hsetup.port.reduce hstate hevent shell.phase setup.capabilities
    dsimp only
    revert hanswer
    rcases setup.port.reduce shell.phase event v setup.capabilities with e | ⟨phase, effects⟩ <;>
      rcases setup'.port.reduce shell.phase event' w setup.capabilities with
        e' | ⟨phase', effects'⟩ <;> intro hanswer <;> cases hanswer
    case raises => exact ⟨.raised e e', hasked⟩
    case returns hanswer =>
      refine hsetup.execEffects hhost.callback hanswer.effects ?_
      exact ⟨hasked.transport, hanswer.phase, hasked.modelId, hasked.listening, hasked.trace⟩

section Calls

variable {host : Shell.Host ε τ} {host' : Shell.Host ε' τ'} (hhost : SameHost T host host')

include hhost

theorem openComm : SameCode T (Shell.openComm setup host) (Shell.openComm setup' host') := by
  intro shell shell' h
  simp only [Shell.openComm, ← h.phase]
  split_ifs
  · exact ⟨.returned, h⟩
  · exact hsetup.executeWith hhost .openComm h

theorem handleInbound {data data' : Bindings} (hmessage : SameMessage data data')
    {buffers buffers' : List Binary} (hbuffers : raws buffers = raws buffers') :
    SameCode T (Shell.handleInbound setup host (.dict data) buffers)
      (Shell.handleInbound setup' host' (.dict data') buffers') := by
  intro shell shell' h
  have hparse := hsetup.port.parse hmessage
  have hnext := hsetup.executeWith hhost (.inbound hmessage hbuffers) h
  simp only [Shell.handleInbound]
  revert hparse
  rcases setup.port.parseMessage (.dict data) with e | parsed <;>
    rcases setup'.port.parseMessage (.dict data') with e' | parsed' <;>
    intro hparse <;> cases hparse
  case raises => exact ⟨.raised e e', h⟩
  case returns hignored =>
    cases parsed <;> cases parsed' <;> simp [Protocol.Message.isIgnored] at hignored <;>
      first | exact hnext | exact ⟨.returned, h⟩

theorem invoke {call call' : Shell.Call} (hcall : SameCall call call') :
    SameCode T (Shell.invoke setup host call) (Shell.invoke setup' host' call') := by
  intro shell shell' h
  cases hcall with
  | openComm => exact hsetup.openComm hhost h
  | sendState include? => exact hsetup.executeWith hhost (.sendState include?) h
  | sendCustom hcontent hbuffers =>
      exact hsetup.executeWith hhost (.sendCustom hcontent hbuffers) h
  | closeComm => exact hsetup.execute hhost.callback .closeComm sameState_nil h
  | display =>
      have hopen := hsetup.openComm hhost h
      have hdisplay : Shell.reprMimebundle setup host shell =
          Shell.openComm setup host shell := by
        simp only [Shell.reprMimebundle, Shell.openComm]
        cases shell.phase <;> simp
      simpa only [Shell.invoke, hdisplay] using hopen
  | inbound hmessage hbuffers => exact hsetup.handleInbound hhost hmessage hbuffers h

end Calls

/-- The same host code takes shells that are alike to the same end. -/
theorem run {script : Shell.Script ε} {script' : Shell.Script ε'}
    (hscript : SameScript script script') :
    SameCode T (Shell.run setup script) (Shell.run setup' script') := by
  induction hscript with
  | ret => exact fun h => ⟨.returned, h⟩
  | raise e e' => exact fun h => ⟨.raised e e', h⟩
  | wait => exact fun h => ⟨.running, h⟩
  | @call call call' getState getState' asked callback next asked' callback' next' hcall _
      hstate _ _ ihasked ihcallback ihnext =>
      intro shell shell' h
      have hhost : SameHost T ⟨Shell.run setup asked, getState, Shell.run setup callback⟩
          ⟨Shell.run setup' asked', getState', Shell.run setup' callback'⟩ :=
        ⟨ihasked, hstate, ihcallback⟩
      obtain ⟨houtcome, hafter⟩ := hsetup.invoke hhost hcall h
      simp only [Shell.run]
      revert houtcome hafter
      rcases Shell.invoke setup _ call shell with ⟨outcome, after⟩
      rcases Shell.invoke setup' _ call' shell' with ⟨outcome', after'⟩
      intro houtcome hafter
      cases houtcome with
      | returned | raised => exact ihnext hafter
      | running => exact ⟨.running, hafter⟩

end Setup.Alike

end InStep

/-! ### Python and Julia -/

namespace CommTransport

/-- The two adapters over a comm package hold the same comm, and refuse the same sends. -/
theorem adapter_alike (newId : Nat → String) (notOpened : ε) (notOpened' : ε') :
    (adapter newId notOpened).Alike Eq (adapter newId notOpened') where
  raises := by
    rintro _ _ ⟨htype, -, -⟩ t _ rfl
    simp only [adapter, send, htype]
    split <;> first | rfl | (split <;> rfl)
  send := by
    rintro _ _ ⟨htype, -, -⟩ t _ rfl
    simp only [adapter, send, htype]
    split <;> first | rfl | (split <;> rfl)
  onMessage := by rintro t _ rfl; rfl
  commId := by rintro t _ rfl; rfl

end CommTransport

theorem SameEvent.reduce_alike {v w : Bindings} (hstate : SameState v w) {event event' : Event}
    (hevent : SameEvent event event') (phase : Phase) (capabilities : TransportCapabilities) :
    Matches SameAnswer (Lifecycle.python.reduce phase event v capabilities)
      (Julia.julia.reduce phase event' w capabilities) := by
  cases hevent with
  | openComm =>
      have hopen := reduceOpen_same hstate phase capabilities
      rwa [Julia.reduceOpen_eq] at hopen
  | sendState include? => exact reduceSendState_same hstate phase include?
  | sendCustom hcontent hbuffers =>
      have hsend := reduceSendCustom_same hcontent hbuffers phase capabilities
      rwa [Julia.reduceSendCustom_eq] at hsend
  | inbound hmessage hbuffers =>
      have hinbound := reduceInbound_same hstate hmessage hbuffers phase capabilities
      rwa [Julia.reduceInbound_eq] at hinbound
  | closeComm =>
      simp only [Port.reduce, Port.reduceClose]
      split_ifs
      · exact .returns ⟨rfl, .cons (.send rfl rfl (.whole (Setoid.refl _) rfl)) .nil⟩
      · exact .returns ⟨rfl, .nil⟩
  | commIdAssigned id => exact .returns ⟨rfl, .nil⟩

/-- The kind of a message is read off its method. -/
theorem SameMessage.isIgnored_eq {data data' : Bindings} (h : SameMessage data data') :
    (Protocol.parseMessage (.dict data)).isIgnored =
      (Protocol.parseMessage (.dict data')).isIgnored := by
  by_cases hupdate : Protocol.get data "method" .none = .str "update"
  · rw [parseMessage_update hupdate, parseMessage_update ((h.method_iff _).mp hupdate)]
    rfl
  by_cases hrequest : Protocol.get data "method" .none = .str "request_state"
  · rw [parseMessage_requestState hrequest, parseMessage_requestState ((h.method_iff _).mp hrequest)]
  by_cases hcustom : Protocol.get data "method" .none = .str "custom"
  · rw [parseMessage_custom hcustom, parseMessage_custom ((h.method_iff _).mp hcustom)]
    rfl
  · rw [parseMessage_ignored hupdate hrequest hcustom, parseMessage_ignored
      (fun heq => hupdate ((h.method_iff _).mpr heq))
      (fun heq => hrequest ((h.method_iff _).mpr heq))
      (fun heq => hcustom ((h.method_iff _).mpr heq))]
    rfl

theorem Julia.port_alike : Lifecycle.python.Alike Julia.julia where
  reduce hstate _ _ hevent := hevent.reduce_alike hstate
  parse hmessage := .returns hmessage.isIgnored_eq

/-- Over transports that behave alike the Julia shell follows the Python shell: host code
that makes the same calls, from inside `get_state` and callbacks too, to any depth, takes
both through the same exchanges to the same phase, id and end. -/
theorem julia_shell_follows_python {T : τ → τ' → Prop} {transport : Transport PyError τ}
    {transport' : Transport JuliaError τ'} (htransport : transport.Alike T transport')
    (capabilities : TransportCapabilities) (hasSetState hasOnCustom : Bool)
    {script : Shell.Script PyError} {script' : Shell.Script JuliaError}
    (hscript : SameScript script script') {t : τ} {t' : τ'} (ht : T t t') (modelId : String) :
    SameEnd T
      (Shell.run { port := Lifecycle.python, transport, capabilities, hasSetState, hasOnCustom }
        script (Shell.start t modelId))
      (Shell.run { port := Julia.julia, transport := transport', capabilities, hasSetState,
                   hasOnCustom }
        script' (Shell.start t' modelId)) :=
  have hsetup : Setup.Alike T
      { port := Lifecycle.python, transport, capabilities, hasSetState, hasOnCustom }
      { port := Julia.julia, transport := transport', capabilities, hasSetState, hasOnCustom } :=
    ⟨Julia.port_alike, htransport, rfl, rfl, rfl⟩
  hsetup.run hscript ⟨ht, rfl, rfl, rfl, .nil⟩

namespace LockstepWitness

open ReducersWitness Shell

/-- A widget is opened and takes in an update; its `set_state` sends the state back, and
`get_state` closes the widget before it answers. -/
def session {ε : Type} (getState : Except ε Bindings) : Script ε :=
  .call .openComm .ret getState .ret
    (.call (.inbound (.dict update) [⟨.bytes, [66]⟩]) .ret getState
      (.call (.sendState none) (.call .closeComm .ret getState .ret .ret) getState .ret .ret) .ret)

theorem sameScript {getState : Except PyError Bindings} {getState' : Except JuliaError Bindings}
    (hstate : Matches SameState getState getState') :
    SameScript (session getState) (session getState') :=
  .call .openComm .ret hstate .ret
    (.call (.inbound sameMessage rfl) .ret hstate
      (.call (.sendState none) (.call .closeComm .ret hstate .ret .ret) hstate .ret .ret) .ret)

end LockstepWitness

open ReducersWitness LockstepWitness in
theorem julia_shell_follows_python_session :
    SameEnd Eq
      (Shell.run { port := Lifecycle.python,
                   transport := CommTransport.adapter ListeningWitness.newId Jupyter.notOpened }
        (session (.ok picture)) (Shell.start {} ""))
      (Shell.run { port := Julia.julia,
                   transport := CommTransport.adapter ListeningWitness.newId Julia.notOpened }
        (session (.ok pictured)) (Shell.start {} "")) :=
  julia_shell_follows_python (CommTransport.adapter_alike _ _ _) {} true true
    (sameScript (.returns sameState)) rfl ""

end Cositos
