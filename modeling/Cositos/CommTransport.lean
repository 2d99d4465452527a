/-
The transport over a comm package: which comm it holds, and whether the handler
of the shell is bound to it.  The Python and the Julia transport are the same
adapter; their exceptions and their ports are parameters.
-/
import Cositos.Runs
import Cositos.ShellRuns

namespace Cositos

/-- A comm: its id, and whether a callback is registered on it. -/
structure Comm where
  id : String
  bound : Bool
deriving DecidableEq, Repr

/-- `CommTransport`: the comm it holds, and whether a callback waits for one.
The only callback a shell registers is its own handler.  `created` counts the
comms made so far. -/
structure CommTransport where
  comm : Option Comm := none
  pending : Bool := false
  created : Nat := 0
deriving DecidableEq, Repr

namespace CommTransport

variable {ε : Type} (newId : Nat → String)

/-- `_open`: a fresh comm, to which the waiting callback is bound. -/
def openComm (transport : CommTransport) : CommTransport :=
  { comm := some { id := newId transport.created, bound := transport.pending }
    pending := false
    created := transport.created + 1 }

/-- `send`; `notOpened` is what `_require_comm` raises. -/
def send (notOpened : ε) (message : Send) (transport : CommTransport) :
    Option ε × CommTransport :=
  match message.msgType with
  | .commOpen => (none, openComm newId transport)
  | .commMsg | .commClose =>
      match transport.comm with
      | none => (some notOpened, transport)
      | some _ => (none, transport)

/-- `on_message`: bind the callback, now or when there is a comm. -/
def onMessage (transport : CommTransport) : CommTransport :=
  match transport.comm with
  | none => { transport with pending := true }
  | some comm => { transport with comm := some { comm with bound := true } }

/-- `comm_id`. -/
def commId (transport : CommTransport) : String :=
  match transport.comm with
  | none => ""
  | some comm => comm.id

/-- The transport over a comm package that numbers its comms by `newId`. -/
def adapter (notOpened : ε) : Transport ε CommTransport where
  send := send newId notOpened
  onMessage := onMessage
  commId := commId

end CommTransport

namespace Shell

/-! ### Opening and closing over comms -/

/-- A shell over comms. -/
def commSetup {ε : Type} (port : Port ε) (newId : Nat → String) (notOpened : ε)
    (capabilities : TransportCapabilities) : Setup ε CommTransport :=
  { port, transport := CommTransport.adapter newId notOpened, capabilities }

variable {ε : Type} (port : Port ε) (newId : Nat → String) (notOpened : ε)
  (capabilities : TransportCapabilities)

/-- The comm package delivers a message on the comm the transport holds. -/
def deliver (host : Host ε CommTransport) (data : Value) (buffers : List Binary) :
    Code ε CommTransport := fun shell =>
  match shell.transport.comm with
  | some { bound := true, .. } =>
      handleInbound (commSetup port newId notOpened capabilities) host data buffers shell
  | _ => (.returned, shell)

/-- The handler is bound to the held comm, and an update delivered there reaches
`set_state`. -/
def Hears (shell : Shell ε CommTransport) : Prop :=
  (∃ comm, shell.transport.comm = some comm ∧ comm.bound = true) ∧
  ∀ (host : Code ε CommTransport) data buffers currentState state bufferPaths merged,
    port.parseMessage data = .ok (.update state bufferPaths) →
    port.reduce .opened (.inbound data buffers) currentState capabilities =
      .ok (.opened, [.applyState merged]) →
    deliver port newId notOpened capabilities (.plain host (.ok currentState)) data buffers
        shell = host (shell.record (.applied merged))

/-- How phase, listening flag, comm and waiting callback hang together. -/
structure Wired (shell : Shell ε CommTransport) : Prop where
  unopened : shell.phase = .unopened →
    shell.listening = false ∧ shell.transport.comm = none
  listening : shell.phase ≠ .unopened → shell.listening = true
  pending : shell.transport.pending = false
  comm : shell.phase ≠ .unopened → ∃ comm, shell.transport.comm = some comm

variable {port newId notOpened capabilities}

/-- An open shell hears exactly if its comm is bound. -/
theorem hears_iff {shell : Shell ε CommTransport} (hphase : shell.phase = .opened) :
    Hears port newId notOpened capabilities shell ↔
      ∃ comm, shell.transport.comm = some comm ∧ comm.bound = true := by
  refine ⟨fun h => h.1, fun hbound => ⟨hbound, ?_⟩⟩
  intro host data buffers currentState state bufferPaths merged hparse hreduce
  obtain ⟨⟨id, bound⟩, hcomm, hbound⟩ := hbound
  simp only at hbound
  subst hbound
  have hshell : { shell with phase := .opened } = shell := by rw [← hphase]
  simp only [deliver, hcomm, handleInbound, hparse, executeWith_plain, execute, commSetup, hphase,
    hreduce, execEffects, execOne, hshell]
  cases host (shell.record (.applied merged)) with
  | mk outcome after => cases outcome <;> rfl

/-- An answer to `Open` outside an open comm: a `comm_open`, then listening. -/
theorem reduce_openComm_effects (hreceive : capabilities.supportsReceive = true)
    {phase phase' : Phase} (hphase : phase ≠ .opened) {currentState : Bindings}
    {effects : List Effect}
    (hreduce : port.reduce phase .openComm currentState capabilities = .ok (phase', effects)) :
    phase' = .opened ∧
      ∃ message, message.msgType = .commOpen ∧ effects = [.send message, .listen] := by
  cases Port.reduce_moves hreduce with
  | sends hevent _ => simp at hevent
  | skips _ hopen _ => exact absurd (hopen rfl) hphase
  | refuses hevent => simp [Port.requiresOpen] at hevent
  | @opens _ message _ htype => exact ⟨rfl, message, htype, by simp [hreceive]⟩

variable (newId notOpened) in
/-- A successful opening holds a fresh comm, to which the handler is bound only
if the shell was not listening before. -/
theorem openComm_commSetup (hreceive : capabilities.supportsReceive = true)
    {shell : Shell ε CommTransport} (hwired : Wired shell) (hphase : shell.phase ≠ .opened)
    {currentState : Bindings} {result : Phase × List Effect}
    (hreduce : port.reduce shell.phase .openComm currentState capabilities = .ok result) :
    ∃ after, openComm (commSetup port newId notOpened capabilities)
        (.plain idle (.ok currentState)) shell = (.returned, after) ∧ Wired after ∧ after.phase = .opened ∧
      after.transport.comm =
        some ⟨newId shell.transport.created, decide (shell.phase = .unopened)⟩ := by
  obtain ⟨phase, effects⟩ := result
  obtain ⟨rfl, message, htype, rfl⟩ := reduce_openComm_effects hreceive hphase hreduce
  have hadopt : ∀ shell' : Shell ε CommTransport, shell'.phase = .opened →
      ∃ modelId, adoptCommId (commSetup port newId notOpened capabilities) shell' =
        (.returned, { shell' with modelId }) := fun shell' h => ⟨_, adoptCommId_eq _ h⟩
  obtain ⟨modelId, hadopted⟩ := hadopt (Shell.record { shell with
    phase := .opened
    transport := CommTransport.openComm newId shell.transport } (.sent message none)) rfl
  simp only [openComm, if_neg hphase, executeWith_plain, execute, commSetup, hreduce, execEffects,
    execOne, CommTransport.adapter, CommTransport.send, htype, if_true] at hadopted ⊢
  rw [hadopted]
  by_cases hnew : shell.phase = .unopened
  · have hlistening := (hwired.unopened hnew).1
    refine ⟨_, by simp [record, hlistening, idle]; rfl, ⟨?_, ?_, ?_, ?_⟩, rfl, ?_⟩ <;>
      simp [CommTransport.onMessage, CommTransport.openComm, hnew]
  · have hlistening := hwired.listening hnew
    refine ⟨_, by simp [record, hlistening]; rfl, ⟨?_, ?_, ?_, ?_⟩, rfl, ?_⟩ <;>
      simp [CommTransport.openComm, hnew, hwired.pending]

variable (port newId notOpened capabilities) in
/-- Closing leaves no open shell, or changes nothing. -/
theorem closeComm_commSetup {shell : Shell ε CommTransport} (hwired : Wired shell) :
    let after := (closeComm (commSetup port newId notOpened capabilities) idle shell).2
    Wired after ∧ (after.phase ≠ .opened ∨ after = shell) := by
  intro after
  cases hreduce : port.reduce shell.phase .closeComm [] capabilities with
  | error e =>
      have hafter : after = shell := by
        simp [after, closeComm, execute, commSetup, hreduce]
      rw [hafter]
      exact ⟨hwired, Or.inr rfl⟩
  | ok result =>
      obtain ⟨phase, effects⟩ := result
      have hmoves := Port.reduce_moves hreduce
      generalize hbefore : shell.phase = before at hmoves
      cases hmoves with
      | sends hevent _ => simp at hevent
      | refuses hevent => simp [Port.requiresOpen] at hevent
      | skips _ _ hclose =>
          have hafter : after = shell := by
            simp [after, closeComm, execute, commSetup, hreduce, execEffects, ← hbefore]
          rw [hafter]
          exact ⟨hwired, Or.inr rfl⟩
      | @closes message htype =>
          obtain ⟨comm, hcomm⟩ := hwired.comm (by simp [hbefore])
          have hafter : after = Shell.record { shell with phase := .closed }
              (.sent message none) := by
            simp [after, closeComm, execute, commSetup, hreduce, execEffects, execOne,
              CommTransport.adapter, CommTransport.send, htype, hcomm]
          have hlistening := hwired.listening (by simp [hbefore])
          rw [hafter]
          exact ⟨⟨by simp [record], fun _ => hlistening, hwired.pending, fun _ => ⟨comm, hcomm⟩⟩,
            Or.inl (by simp [record])⟩

/-- A shell with a transport that has made no comm. -/
theorem wired_start (modelId : String) :
    Wired ({ transport := {}, modelId } : Shell ε CommTransport) :=
  ⟨fun _ => ⟨rfl, rfl⟩, fun h => absurd rfl h, rfl, fun h => absurd rfl h⟩

section Toggling

variable (port newId notOpened capabilities)

/-- The host has a state that can be sent: `get_state` returns, and the reducer
answers `Open`. -/
def Sendable (getState : Except ε Bindings) : Prop :=
  ∃ currentState, getState = .ok currentState ∧
    ∃ result, port.reduce .closed .openComm currentState capabilities = .ok result

/-- The shell hears its frontend as long as it is open. -/
def HearsWhileOpen (shell : Shell ε CommTransport) : Prop :=
  shell.phase = .opened → Hears port newId notOpened capabilities shell

/-- What one call makes of a wired shell: it stays wired, and it goes deaf by
opening again after a close, and only by that. -/
structure Toggles (reopens : Prop) (shell after : Shell ε CommTransport) : Prop where
  wired : Wired after
  hears : HearsWhileOpen port newId notOpened capabilities shell → ¬ reopens →
    HearsWhileOpen port newId notOpened capabilities after
  deaf : reopens → ¬ HearsWhileOpen port newId notOpened capabilities after

end Toggling

theorem toggles_self {reopens : Prop} {shell : Shell ε CommTransport} (hwired : Wired shell)
    (hno : ¬ reopens) : Toggles port newId notOpened capabilities reopens shell shell :=
  ⟨hwired, fun h _ => h, fun h => absurd h hno⟩

theorem toggles_openComm (hreceive : capabilities.supportsReceive = true)
    {shell : Shell ε CommTransport} (hwired : Wired shell) (getState : Except ε Bindings) :
    Toggles port newId notOpened capabilities
      (shell.phase = .closed ∧ Sendable port capabilities getState) shell
      (openComm (commSetup port newId notOpened capabilities) (.plain idle getState) shell).2 := by
  by_cases hphase : shell.phase = .opened
  · rw [openComm, if_pos hphase]
    exact toggles_self hwired (by simp [hphase])
  cases getState with
  | error e =>
      rw [openComm, if_neg hphase, executeWith_plain]
      exact toggles_self hwired (by simp [Sendable])
  | ok currentState =>
      cases hreduce : port.reduce shell.phase .openComm currentState capabilities with
      | error e =>
          have hself : (openComm (commSetup port newId notOpened capabilities)
              (.plain idle (.ok currentState)) shell).2 = shell := by
            simp [openComm, hphase, executeWith_plain, execute, commSetup, hreduce]
          rw [hself]
          refine toggles_self hwired ?_
          rintro ⟨hclosed, _, heq, result, hresult⟩
          cases heq
          rw [hclosed, hresult] at hreduce
          cases hreduce
      | ok result =>
          obtain ⟨after, heq, hafter, hopen, hcomm⟩ :=
            openComm_commSetup newId notOpened hreceive hwired hphase hreduce
          rw [heq]
          refine ⟨hafter, fun _ hno _ => ?_, fun hreopens hhears => ?_⟩
          · refine (hears_iff hopen).mpr ⟨_, hcomm, decide_eq_true ?_⟩
            by_contra hold
            have hclosed : shell.phase = .closed := by
              cases h : shell.phase <;> simp_all
            exact hno ⟨hclosed, currentState, rfl, result, hclosed ▸ hreduce⟩
          · obtain ⟨comm, hcomm', hbound⟩ := (hears_iff hopen).mp (hhears hopen)
            rw [hcomm] at hcomm'
            cases hcomm'
            simp [hreopens.1] at hbound

theorem toggles_closeComm {shell : Shell ε CommTransport} (hwired : Wired shell) :
    Toggles port newId notOpened capabilities False shell
      (closeComm (commSetup port newId notOpened capabilities) idle shell).2 := by
  obtain ⟨hafter, hphase | hself⟩ :=
    closeComm_commSetup port newId notOpened capabilities hwired
  · exact ⟨hafter, fun _ _ h => absurd h hphase, False.elim⟩
  · rw [hself]
    exact toggles_self hwired id

end Shell

end Cositos
