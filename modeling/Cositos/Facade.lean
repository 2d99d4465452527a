/-
A shell inside a façade, as both `Widget` classes have one (`model.py`, `Cositos.jl`): what
the calls of the shell do when the host callbacks, `get_state` among them, use the façade
again.
-/
import Cositos.Listening

namespace Cositos

namespace Facade

/-- The public calls of a façade, and the delivery of an inbound message. -/
inductive Call
  | openComm
  | sendState (include? : Option (List Key))
  | sendCustom (content : Value) (buffers : List Binary)
  | closeComm
  | mimebundle (reprText : String)
  | reprMimebundle
  | inbound (data : Value) (buffers : List Binary)

/-- What can be seen when a call has returned. -/
structure Return where
  modelId : String
  shellId : String
  bundle : Bindings
  opened : Bool
  phase : Phase
  reported : List String

/-- A façade in use.  The comm ids that were reported at a `comm_open`, the executions and
the returns are a record; the code keeps none. -/
structure Scene (W : Type) where
  widget : W
  reported : List String := []
  executions : List Execution := []
  returns : List Return := []

/-- How a façade holds its shell, and the id that it stores besides. -/
structure Holder (ε τ W : Type) where
  shell : W → Shell ε τ
  withShell : W → Shell ε τ → W
  modelId : W → String
  withModelId : W → String → W
  shell_withShell : ∀ w s, shell (withShell w s) = s
  modelId_withShell : ∀ w s, modelId (withShell w s) = modelId w
  shell_withModelId : ∀ w id, shell (withModelId w id) = shell w
  modelId_withModelId : ∀ w id, modelId (withModelId w id) = id
  withShell_withShell : ∀ w s s', withShell (withShell w s) s' = withShell w s'
  withShell_shell : ∀ w, withShell w (shell w) = w

variable {ε τ W : Type}

/-- A piece of code that uses a façade. -/
abbrev Code (ε W : Type) := Scene W → Outcome ε × Scene W

/-- The host during a call: what `get_state` does before it answers, its answer, and what
`set_state` or `on_custom` does. -/
structure Host (ε W : Type) where
  asked : Code ε W
  getState : Except ε Bindings
  callback : Code ε W

variable (setup : Setup ε τ) (holder : Holder ε τ W)

/-! ### The shell inside -/

def shellOf (scene : Scene W) : Shell ε τ := holder.shell scene.widget

def putShell (scene : Scene W) (shell : Shell ε τ) : Scene W :=
  { scene with widget := holder.withShell scene.widget shell }

/-- Code that uses nothing but the shell. -/
def onShell (code : Shell.Code ε τ) : Code ε W := fun scene =>
  ((code (shellOf holder scene)).1, putShell holder scene (code (shellOf holder scene)).2)

/-- The id that `_exec_one` reads after a `comm_open`. -/
def reportedBy (transport : τ) : Effect → List String
  | .send message =>
      if message.msgType = .commOpen then [setup.transport.commId transport] else []
  | _ => []

/-- Whether the effect is a callback of the host. -/
def callsHost : Effect → Bool
  | .applyState _ => setup.hasSetState
  | .invokeCustom _ _ => setup.hasOnCustom
  | _ => false

/-- `_exec_one`: the part of the shell, then the callback.  The transport calls nothing. -/
def execOne (callback : Code ε W) (effect : Effect) : Code ε W := fun scene =>
  match onShell holder (Shell.execOne setup Shell.idle effect) scene with
  | (.returned, scene) =>
      let ids := reportedBy setup (shellOf holder scene).transport effect
      let scene := { scene with reported := scene.reported ++ ids }
      if callsHost setup effect then callback scene else (.returned, scene)
  | stopped => stopped

/-- The loop of `_execute` over the effects. -/
def execEffects (callback : Code ε W) : List Effect → Code ε W
  | [] => fun scene => (.returned, scene)
  | effect :: effects => fun scene =>
      match execOne setup holder callback effect scene with
      | (.returned, scene) => execEffects callback effects scene
      | stopped => stopped

/-- The answer of a `reduce` that was given this phase is stored. -/
def store (event : Event) (read phase : Phase) (scene : Scene W) : Scene W :=
  let shell := shellOf holder scene
  { putShell holder scene { shell with phase } with
    executions := scene.executions ++ [⟨event, read, shell.phase⟩] }

/-- `_execute(reduce(self._phase, event, self._get_state(), self._capabilities))`: the phase
is read before `get_state` is called. -/
def executeWith (host : Host ε W) (event : Event) : Code ε W := fun scene =>
  let read := (shellOf holder scene).phase
  match host.asked scene with
  | (.returned, scene) =>
      match host.getState with
      | .error e => (.raised e, scene)
      | .ok currentState =>
          match setup.port.reduce read event currentState setup.capabilities with
          | .error e => (.raised e, scene)
          | .ok (phase, effects) =>
              execEffects setup holder host.callback effects (store holder event read phase scene)
  | stopped => stopped

/-- `open` of the shell. -/
def openShell (host : Host ε W) : Code ε W := fun scene =>
  if (shellOf holder scene).phase = .opened then (.returned, scene)
  else executeWith setup holder host .openComm scene

/-- `_repr_mimebundle_` of the shell, its result apart. -/
def displayShell (host : Host ε W) : Code ε W := fun scene =>
  if (shellOf holder scene).phase = .unopened ∨ (shellOf holder scene).phase = .closed then
    openShell setup holder host scene
  else
    (.returned, scene)

/-- `close` of the shell, which asks the host nothing. -/
def closeShell : Code ε W := onShell holder (Shell.closeComm setup Shell.idle)

/-- `_handle_inbound`. -/
def handleInbound (host : Host ε W) (data : Value) (buffers : List Binary) : Code ε W :=
  fun scene =>
    match setup.port.parseMessage data with
    | .error e => (.raised e, scene)
    | .ok (.ignored _) => (.returned, scene)
    | .ok _ => executeWith setup holder host (.inbound data buffers) scene

/-! ### The façade around it -/

/-- What the façade does once the shell has returned. -/
def andThen (code : Code ε W) (after : W → W) : Code ε W := fun scene =>
  match code scene with
  | (.returned, scene) => (.returned, { scene with widget := after scene.widget })
  | stopped => stopped

/-- `self.model_id = self._shell.model_id`. -/
def sync (w : W) : W := holder.withModelId w (holder.shell w).modelId

/-- A call, with what is seen when it has returned. -/
def observe (see : Scene W → Return) (code : Code ε W) : Code ε W := fun scene =>
  match code scene with
  | (.returned, scene) => (.returned, { scene with returns := scene.returns ++ [see scene] })
  | stopped => stopped

/-- Host code: it ends in one of three ways, or makes a call and goes on.  `asked` is what
`get_state` does before it answers, `callback` what the callback of the call does; an
exception out of the call is caught, to go on or to raise as `next` says. -/
inductive Script (ε : Type)
  | ret
  | raise (e : ε)
  | wait
  | call (call : Call) (asked : Script ε) (getState : Except ε Bindings) (callback next : Script ε)

/-- Host code run on a façade. -/
def run (invoke : Host ε W → Call → Code ε W) : Script ε → Code ε W
  | .ret => fun scene => (.returned, scene)
  | .raise e => fun scene => (.raised e, scene)
  | .wait => fun scene => (.running, scene)
  | .call call asked getState callback next => fun scene =>
      match invoke ⟨run invoke asked, getState, run invoke callback⟩ call scene with
      | (.running, scene) => (.running, scene)
      | (_, scene) => run invoke next scene

/-! ### What the shell inside can do -/

variable {setup holder}

@[simp] theorem shellOf_putShell (scene : Scene W) (shell : Shell ε τ) :
    shellOf holder (putShell holder scene shell) = shell :=
  holder.shell_withShell scene.widget shell

/-- The same phase and the same id. -/
def SameFace (shell shell' : Shell ε τ) : Prop :=
  shell'.phase = shell.phase ∧ shell'.modelId = shell.modelId

/-- The id of a shell once a comm id was reported. -/
def adopted (id reported : String) : String := if reported = "" then id else reported

/-- A transport that never raises. -/
def Steady (setup : Setup ε τ) : Prop :=
  ∀ message before, (setup.transport.send message before).1 = none

theorem execOne_shell {callback : Code ε W} {effect : Effect} {scene : Scene W}
    {shell : Shell ε τ} (hhost : callsHost setup effect = false)
    (h : Shell.execOne setup Shell.idle effect (shellOf holder scene) = (.returned, shell)) :
    execOne setup holder callback effect scene =
      (.returned, { putShell holder scene shell with
        reported := scene.reported ++ reportedBy setup shell.transport effect }) := by
  simp only [execOne, onShell, h, hhost, shellOf_putShell]
  rfl

theorem execOne_host {callback : Code ε W} {effect : Effect} {scene : Scene W}
    {shell : Shell ε τ} (hhost : callsHost setup effect = true)
    (h : Shell.execOne setup Shell.idle effect (shellOf holder scene) = (.returned, shell)) :
    execOne setup holder callback effect scene =
      callback { putShell holder scene shell with
        reported := scene.reported ++ reportedBy setup shell.transport effect } := by
  simp only [execOne, onShell, h, hhost, shellOf_putShell]
  rfl

variable (holder) in
theorem execOne_message (hsend : Steady setup) (callback : Code ε W) {message : Send}
    (htype : message.msgType ≠ .commOpen) (scene : Scene W) :
    ∃ shell, SameFace (shellOf holder scene) shell ∧
      execOne setup holder callback (.send message) scene =
        (.returned, putShell holder scene shell) := by
  have hraised := hsend message (shellOf holder scene).transport
  let sent : Shell ε τ := Shell.record { shellOf holder scene with
    transport := (setup.transport.send message (shellOf holder scene).transport).2 }
    (.sent message none)
  have hshell : Shell.execOne setup Shell.idle (.send message) (shellOf holder scene) =
      (.returned, sent) := by
    simp only [Shell.execOne, hraised, if_neg htype]
    rfl
  refine ⟨sent, ⟨rfl, rfl⟩, ?_⟩
  rw [execOne_shell rfl hshell]
  simp only [reportedBy, if_neg htype, List.append_nil]
  rfl

theorem execOne_commOpen (hsend : Steady setup) (callback : Code ε W) {message : Send}
    (htype : message.msgType = .commOpen) {scene : Scene W}
    (hphase : (shellOf holder scene).phase = .opened) :
    ∃ shell id, shell.phase = .opened ∧
      shell.modelId = adopted (shellOf holder scene).modelId id ∧
      execOne setup holder callback (.send message) scene =
        (.returned, { putShell holder scene shell with reported := scene.reported ++ [id] }) := by
  have hraised := hsend message (shellOf holder scene).transport
  let sent : Shell ε τ := Shell.record { shellOf holder scene with
    transport := (setup.transport.send message (shellOf holder scene).transport).2 }
    (.sent message none)
  let id := setup.transport.commId sent.transport
  let opened : Shell ε τ := { sent with modelId := adopted sent.modelId id }
  have hsent : sent.phase = .opened := hphase
  have hshell : Shell.execOne setup Shell.idle (.send message) (shellOf holder scene) =
      (.returned, opened) := by
    simp only [Shell.execOne, hraised, if_pos htype]
    exact Shell.adoptCommId_eq setup hsent
  refine ⟨opened, id, hphase, rfl, ?_⟩
  rw [execOne_shell rfl hshell]
  simp only [reportedBy, if_pos htype]
  rfl

variable (setup holder) in
theorem execOne_listen (callback : Code ε W) (scene : Scene W) :
    ∃ shell, SameFace (shellOf holder scene) shell ∧
      execOne setup holder callback .listen scene = (.returned, putShell holder scene shell) := by
  have hlisten : ∃ shell, SameFace (shellOf holder scene) shell ∧
      Shell.execOne setup Shell.idle .listen (shellOf holder scene) = (.returned, shell) := by
    by_cases hlistening : (shellOf holder scene).listening = true
    · refine ⟨shellOf holder scene, ⟨rfl, rfl⟩, ?_⟩
      simp only [Shell.execOne, if_pos hlistening]
    · let listened : Shell ε τ := Shell.record { shellOf holder scene with
        transport := setup.transport.onMessage (shellOf holder scene).transport } .listened
      refine ⟨{ listened with listening := true }, ⟨rfl, rfl⟩, ?_⟩
      simp only [Shell.execOne, if_neg hlistening]
      rfl
  obtain ⟨shell, hface, hlisten⟩ := hlisten
  refine ⟨shell, hface, ?_⟩
  rw [execOne_shell rfl hlisten]
  simp only [reportedBy, List.append_nil]
  rfl

/-- The effects that open a comm. -/
theorem execEffects_opens (hsend : Steady setup) (callback : Code ε W) {message : Send}
    (htype : message.msgType = .commOpen) (receive : Bool) {scene : Scene W}
    (hphase : (shellOf holder scene).phase = .opened) :
    ∃ shell id, shell.phase = .opened ∧
      shell.modelId = adopted (shellOf holder scene).modelId id ∧
      execEffects setup holder callback
          (.send message :: if receive then [.listen] else []) scene =
        (.returned, { putShell holder scene shell with reported := scene.reported ++ [id] }) := by
  obtain ⟨shell, id, hopen, hid, hone⟩ := execOne_commOpen hsend callback htype hphase
  cases receive with
  | false =>
      refine ⟨shell, id, hopen, hid, ?_⟩
      simp only [execEffects, hone, Bool.false_eq_true, if_false]
  | true =>
      let scene' : Scene W :=
        { putShell holder scene shell with reported := scene.reported ++ [id] }
      have hshell : shellOf holder scene' = shell := shellOf_putShell scene shell
      obtain ⟨shell', hface, hlisten⟩ :=
        execOne_listen setup holder callback scene'
      rw [hshell] at hface
      refine ⟨shell', id, hface.1.trans hopen, hface.2.trans hid, ?_⟩
      simp only [execEffects, hone, if_true]
      rw [hlisten]
      simp only [scene', putShell, holder.withShell_withShell]

/-! ### What a call of the shell can do -/

/-- Code that keeps an invariant, however it ends. -/
def Keeps (I : Scene W → Prop) (code : Code ε W) : Prop :=
  ∀ scene, I scene → I (code scene).2

theorem observe_keeps {I : Scene W → Prop} {see : Scene W → Return} {code : Code ε W}
    (hsee : ∀ scene, I scene → I { scene with returns := scene.returns ++ [see scene] })
    (hcode : Keeps I code) : Keeps I (observe see code) := by
  intro scene h
  have hended := hcode scene h
  simp only [observe]
  generalize code scene = ended at hended
  obtain ⟨outcome, mid⟩ := ended
  cases outcome with
  | raised e | running => exact hended
  | returned => exact hsee mid hended

theorem andThen_keeps {I : Scene W → Prop} {code : Code ε W} {after : W → W}
    (hafter : ∀ scene, I scene → I { scene with widget := after scene.widget })
    (hcode : Keeps I code) : Keeps I (andThen code after) := by
  intro scene h
  have hended := hcode scene h
  simp only [andThen]
  generalize code scene = ended at hended
  obtain ⟨outcome, mid⟩ := ended
  cases outcome with
  | raised e | running => exact hended
  | returned => exact hafter mid hended

/-- An invariant that only looks at the phase and the id of the shell inside. -/
def FaceOnly (holder : Holder ε τ W) (I : Scene W → Prop) : Prop :=
  ∀ scene shell, SameFace (shellOf holder scene) shell → I scene →
    I (putShell holder scene shell)

theorem execEffects_singleton (callback : Code ε W) (effect : Effect) (scene : Scene W) :
    execEffects setup holder callback [effect] scene =
      execOne setup holder callback effect scene := by
  simp only [execEffects]
  split
  · next heq => exact heq.symm
  · next => rfl

/-- An effect for the host: its callback runs, or nothing does. -/
theorem execOne_keeps {I : Scene W → Prop} (hface : FaceOnly holder I) {callback : Code ε W}
    (hcallback : Keeps I callback) {effect : Effect} (hsend : ∀ message, effect ≠ .send message) :
    Keeps I (execOne setup holder callback effect) := by
  intro scene hI
  have hput : ∀ shell, SameFace (shellOf holder scene) shell →
      Shell.execOne setup Shell.idle effect (shellOf holder scene) = (.returned, shell) →
      I (execOne setup holder callback effect scene).2 := by
    intro shell hsame hshell
    have hkept := hface scene shell hsame hI
    have hreported : reportedBy setup shell.transport effect = [] := by
      cases effect with
      | send message => exact absurd rfl (hsend message)
      | listen | applyState | invokeCustom | error => rfl
    cases hhost : callsHost setup effect with
    | true =>
        rw [execOne_host hhost hshell, hreported, List.append_nil]
        exact hcallback _ hkept
    | false =>
        rw [execOne_shell hhost hshell, hreported, List.append_nil]
        exact hkept
  cases effect with
  | send message => exact absurd rfl (hsend message)
  | listen =>
      obtain ⟨shell, hsame, hone⟩ :=
        execOne_listen setup holder callback scene
      rw [hone]
      exact hface scene shell hsame hI
  | applyState state =>
      cases hset : setup.hasSetState with
      | true =>
          exact hput ((shellOf holder scene).record (.applied state)) ⟨rfl, rfl⟩
            (by simp only [Shell.execOne, hset]; rfl)
      | false => exact hput _ ⟨rfl, rfl⟩ (by simp only [Shell.execOne, hset]; rfl)
  | invokeCustom content buffers =>
      cases hset : setup.hasOnCustom with
      | true =>
          exact hput ((shellOf holder scene).record (.invoked content buffers)) ⟨rfl, rfl⟩
            (by simp only [Shell.execOne, hset]; rfl)
      | false => exact hput _ ⟨rfl, rfl⟩ (by simp only [Shell.execOne, hset]; rfl)
  | error message => exact hface scene _ ⟨rfl, rfl⟩ hI

/-- The execution of an answer, from the scene in which its phase is stored. -/
theorem execEffects_keeps (hsend : Steady setup) {I : Scene W → Prop}
    (hface : FaceOnly holder I) {callback : Code ε W} (hcallback : Keeps I callback)
    {read phase : Phase} {event : Event} {effects : List Effect}
    (hevent : event ≠ .openComm ∧ event ≠ .closeComm)
    (hmoves : Port.Moves setup.capabilities read event phase effects) :
    Keeps I (execEffects setup holder callback effects) := by
  cases hmoves with
  | opens => exact absurd rfl hevent.1
  | closes => exact absurd rfl hevent.2
  | sends _ htype =>
      intro scene hI
      obtain ⟨shell, hsame, hone⟩ := execOne_message holder hsend callback
        (by rw [htype]; decide) scene
      rw [execEffects_singleton, hone]
      exact hface scene shell hsame hI
  | applies | invokes | refuses =>
      intro scene hI
      rw [execEffects_singleton]
      exact execOne_keeps hface hcallback (by simp) scene hI
  | skips | adopts => exact fun scene hI => hI

/-- The events that `send_state`, `send_custom` and an inbound message make: their answer
leaves the phase that was read. -/
def leavesPhase : Event → Bool
  | .sendState _ | .sendCustom _ _ | .inbound _ _ => true
  | .openComm | .closeComm | .commIdAssigned _ => false

theorem phase_of_leavesPhase {capabilities : TransportCapabilities} {read phase : Phase}
    {event : Event} {effects : List Effect} (hevent : leavesPhase event = true)
    (hmoves : Port.Moves capabilities read event phase effects) : phase = read := by
  cases hmoves with
  | opens | closes | adopts => cases hevent
  | sends | applies | invokes | refuses | skips => rfl

theorem executeWith_keeps (hsend : Steady setup) {I : Scene W → Prop}
    (hface : FaceOnly holder I) {event : Event} (hevent : leavesPhase event = true)
    (hstore : ∀ read scene, I scene → I (store holder event read read scene))
    {host : Host ε W} (hasked : Keeps I host.asked) (hcallback : Keeps I host.callback) :
    Keeps I (executeWith setup holder host event) := by
  intro scene hI
  have hmid := hasked scene hI
  simp only [executeWith]
  generalize host.asked scene = ended at hmid
  obtain ⟨outcome, mid⟩ := ended
  cases outcome with
  | raised e => exact hmid
  | running => exact hmid
  | returned =>
      cases host.getState with
      | error e => exact hmid
      | ok currentState =>
          dsimp only
          cases hreduce : setup.port.reduce (shellOf holder scene).phase event currentState
              setup.capabilities with
          | error e => exact hmid
          | ok answer =>
              obtain ⟨phase, effects⟩ := answer
              have hmoves := Port.reduce_moves hreduce
              obtain rfl := phase_of_leavesPhase hevent hmoves
              refine execEffects_keeps hsend hface hcallback ⟨?_, ?_⟩ hmoves _ (hstore _ mid hmid)
              · rintro rfl
                cases hevent
              · rintro rfl
                cases hevent

/-- How an opening of the shell can end. -/
inductive Opens (setup : Setup ε τ) (holder : Holder ε τ W) (host : Host ε W) (scene : Scene W) :
    Outcome ε × Scene W → Prop
  | already (hphase : (shellOf holder scene).phase = .opened) :
      Opens setup holder host scene (.returned, scene)
  | stopped {outcome : Outcome ε} (houtcome : outcome ≠ .returned) :
      Opens setup holder host scene (outcome, (host.asked scene).2)
  | opened {read : Phase} {shell : Shell ε τ} {id : String} (hphase : shell.phase = .opened)
      (hid : shell.modelId = adopted (shellOf holder (host.asked scene).2).modelId id) :
      Opens setup holder host scene (.returned,
        { putShell holder (store holder .openComm read .opened (host.asked scene).2) shell with
          reported := (host.asked scene).2.reported ++ [id] })

variable (holder) in
theorem opens_openShell (hsend : Steady setup) (host : Host ε W) (scene : Scene W) :
    Opens setup holder host scene (openShell setup holder host scene) := by
  by_cases hphase : (shellOf holder scene).phase = .opened
  · rw [openShell, if_pos hphase]
    exact .already hphase
  · have hstopped : ∀ outcome, outcome ≠ .returned →
        Opens setup holder host scene (outcome, (host.asked scene).2) := fun _ => .stopped
    rw [openShell, if_neg hphase, executeWith]
    have hopened : ∀ read shell id, shell.phase = Phase.opened →
        shell.modelId = adopted (shellOf holder (host.asked scene).2).modelId id →
        Opens setup holder host scene (.returned,
          { putShell holder (store holder .openComm read .opened (host.asked scene).2) shell with
            reported := (host.asked scene).2.reported ++ [id] }) := fun _ _ _ => .opened
    generalize host.asked scene = ended at hstopped hopened
    obtain ⟨outcome, mid⟩ := ended
    cases outcome with
    | raised e => exact hstopped _ (by simp)
    | running => exact hstopped _ (by simp)
    | returned =>
        cases host.getState with
        | error e => exact hstopped _ (by simp)
        | ok currentState =>
            dsimp only
            cases hreduce : setup.port.reduce (shellOf holder scene).phase .openComm currentState
                setup.capabilities with
            | error e => exact hstopped _ (by simp)
            | ok answer =>
                obtain ⟨phase, effects⟩ := answer
                have hmoves := Port.reduce_moves hreduce
                dsimp only
                generalize (shellOf holder scene).phase = read at hmoves hphase
                cases hmoves with
                | sends hevent => exact absurd rfl hevent.1
                | refuses hevent => cases hevent
                | skips _ hopen => exact absurd (hopen rfl) hphase
                | opens _ htype =>
                    have hstored : (shellOf holder
                        (store holder .openComm read .opened mid)).phase = .opened := by
                      simp [store, shellOf, putShell, holder.shell_withShell]
                    obtain ⟨shell, id, hopen, hid, heffects⟩ := execEffects_opens hsend
                      host.callback htype setup.capabilities.supportsReceive hstored
                    rw [heffects]
                    refine hopened read shell id hopen ?_
                    rw [hid]
                    simp [store, shellOf, putShell, holder.shell_withShell]

variable (holder) in
/-- `close` leaves the comm not open. -/
theorem closeShell_closes (hsend : Steady setup) (scene : Scene W) :
    ∃ shell, shell.phase ≠ .opened ∧ shell.modelId = (shellOf holder scene).modelId ∧
      closeShell setup holder scene = (.returned, putShell holder scene shell) := by
  have hclose : ∃ shell, shell.phase ≠ .opened ∧
      shell.modelId = (shellOf holder scene).modelId ∧
      Shell.closeComm setup Shell.idle (shellOf holder scene) = (.returned, shell) := by
    by_cases hphase : (shellOf holder scene).phase = .opened
    · let message : Send := { msgType := .commClose, data := [] }
      have hraised := hsend message (shellOf holder scene).transport
      let sent : Shell ε τ := Shell.record { shellOf holder scene with
        phase := .closed
        transport := (setup.transport.send message (shellOf holder scene).transport).2 }
        (.sent message none)
      have hreduce : setup.port.reduce .opened .closeComm [] setup.capabilities =
          .ok (.closed, [.send message]) := rfl
      refine ⟨sent, by simp [sent, Shell.record], rfl, ?_⟩
      simp only [Shell.closeComm, Shell.execute, hphase, hreduce, Shell.execEffects,
        Shell.execOne, hraised]
      rfl
    · refine ⟨shellOf holder scene, hphase, rfl, ?_⟩
      have hreduce : setup.port.reduce (shellOf holder scene).phase .closeComm []
          setup.capabilities = .ok ((shellOf holder scene).phase, []) := by
        simp [Port.reduce, Port.reduceClose, hphase]
      simp only [Shell.closeComm, Shell.execute, hreduce, Shell.execEffects]
  obtain ⟨shell, hphase, hid, hclose⟩ := hclose
  refine ⟨shell, hphase, hid, ?_⟩
  simp only [closeShell, onShell, hclose]

/-! ### Whole runs -/

/-- Every run keeps what every call keeps, by induction on the script. -/
theorem keeps_run {invoke : Host ε W → Call → Code ε W} {I : Scene W → Prop}
    (hinvoke : ∀ host call, Keeps I host.asked → Keeps I host.callback → Keeps I (invoke host call))
    (script : Script ε) : Keeps I (run invoke script) := by
  induction script with
  | ret | raise | wait => exact fun scene hI => hI
  | call call asked getState callback next hasked hcallback hnext =>
      intro scene hI
      have hcall := hinvoke ⟨run invoke asked, getState, run invoke callback⟩ call hasked hcallback
        scene hI
      simp only [run]
      split
      · next heq =>
          rw [heq] at hcall
          exact hcall
      · next heq =>
          rw [heq] at hcall
          exact hnext _ hcall

end Facade

end Cositos
