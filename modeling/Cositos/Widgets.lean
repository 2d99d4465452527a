/-
The two façades around a shell: `Widget` of `model.py`, which reads its `_opened` off the
shell, and `Widget` of `Cositos.jl`, which stores an `opened` of its own.
-/
import Cositos.Facade
import Cositos.Sessions

namespace Cositos

/-- An answer, other than to an `Open`, that is stored over a comm open exactly if it was
open when the phase was read: `get_state` has neither closed nor opened it. -/
def Execution.Faithful (execution : Execution) : Prop :=
  Facade.leavesPhase execution.event = true → execution.Settled

instance : DecidablePred Execution.Faithful := fun execution =>
  inferInstanceAs (Decidable (Facade.leavesPhase execution.event = true → execution.Settled))

namespace Facade

/-! ### What every return shows -/

/-- The `model_id` in a display bundle. -/
def bundleId (bundle : Bindings) : Option Value :=
  (bundle.lookup (.str Protocol.widgetViewMimetype)).bind fun view =>
    view.bindings.lookup (.str "model_id")

/-- The last comm id that is not empty, or the initial id if there is none. -/
def latestId (initial : String) (reported : List String) : String :=
  (reported.filter (· ≠ "")).getLast?.getD initial

/-- The three ids are the one that was reported last. -/
def Return.Agrees (initial : String) (seen : Return) : Prop :=
  seen.modelId = seen.shellId ∧ bundleId seen.bundle = some (.str seen.shellId) ∧
    seen.shellId = latestId initial seen.reported

/-- `opened` is whether the shell's phase is `OPEN`. -/
def Return.Marked (seen : Return) : Prop := seen.opened = decide (seen.phase = .opened)

instance : DecidablePred Return.Marked := fun seen =>
  inferInstanceAs (Decidable (seen.opened = decide (seen.phase = .opened)))

@[simp] theorem latestId_append (initial : String) (reported : List String) (id : String) :
    latestId initial (reported ++ [id]) = adopted (latestId initial reported) id := by
  by_cases hid : id = "" <;> simp [latestId, adopted, hid, List.filter_append]

theorem bundleId_mimebundle (modelId reprText : String) :
    bundleId (Protocol.mimebundle modelId reprText) = some (.str modelId) := by
  unfold Protocol.mimebundle
  split_ifs <;> rfl

/-! ### The ids -/

section Ids

variable {ε τ W : Type} {setup : Setup ε τ} {holder : Holder ε τ W} {initial : String}
  {scene : Scene W} {host : Host ε W}

/-- The shell has the id that was reported last, as every return has shown. -/
structure Told (holder : Holder ε τ W) (initial : String) (scene : Scene W) : Prop where
  shell : (shellOf holder scene).modelId = latestId initial scene.reported
  returns : ∀ seen ∈ scene.returns, seen.Agrees initial

/-- And so has the façade. -/
structure Settled (holder : Holder ε τ W) (initial : String) (scene : Scene W) : Prop
    extends Told holder initial scene where
  synced : holder.modelId scene.widget = (shellOf holder scene).modelId

/-- Code that may leave the façade behind its shell, when it returns. -/
def Tells (holder : Holder ε τ W) (initial : String) (code : Code ε W) : Prop :=
  ∀ scene, Settled holder initial scene → Told holder initial (code scene).2 ∧
    ((code scene).1 ≠ .returned → Settled holder initial (code scene).2)

theorem Tells.of_keeps {code : Code ε W} (h : Keeps (Settled holder initial) code) :
    Tells holder initial code :=
  fun scene hsettled => ⟨(h scene hsettled).toTold, fun _ => h scene hsettled⟩

theorem Settled.put (h : Settled holder initial scene) {shell : Shell ε τ}
    (hid : shell.modelId = (shellOf holder scene).modelId) :
    Settled holder initial (putShell holder scene shell) where
  shell := by
    rw [shellOf_putShell, hid]
    exact h.shell
  returns := h.returns
  synced := by
    rw [shellOf_putShell, hid, ← h.synced]
    exact holder.modelId_withShell scene.widget shell

theorem settled_face : FaceOnly holder (Settled holder initial) :=
  fun _ _ hsame h => h.put hsame.2

theorem Settled.store (h : Settled holder initial scene) (event : Event) (read phase : Phase) :
    Settled holder initial (Facade.store holder event read phase scene) := by
  have hput : Settled holder initial
      (putShell holder scene { shellOf holder scene with phase }) := h.put rfl
  exact ⟨⟨hput.shell, hput.returns⟩, hput.synced⟩

theorem keeps_send (hsend : Steady setup) {event : Event} (hevent : leavesPhase event = true)
    (hasked : Keeps (Settled holder initial) host.asked)
    (hcallback : Keeps (Settled holder initial) host.callback) :
    Keeps (Settled holder initial) (executeWith setup holder host event) :=
  executeWith_keeps hsend settled_face hevent (fun read _ h => h.store event read read) hasked
    hcallback

theorem keeps_inbound (data : Value) (buffers : List Binary)
    {I : Scene W → Prop}
    (hexecute : Keeps I (executeWith setup holder host (.inbound data buffers))) :
    Keeps I (handleInbound setup holder host data buffers) := by
  intro scene hI
  unfold handleInbound
  cases setup.port.parseMessage data with
  | error e => exact hI
  | ok message =>
      cases message with
      | ignored method => exact hI
      | update _ _ | custom _ | requestState => exact hexecute scene hI

theorem keeps_close (hsend : Steady setup) :
    Keeps (Settled holder initial) (closeShell setup holder) := by
  intro scene h
  obtain ⟨shell, _, hid, hclose⟩ := closeShell_closes holder hsend scene
  rw [hclose]
  exact h.put hid

/-- An opening reports an id, which the shell adopts. -/
theorem tells_open (hsend : Steady setup) (hasked : Keeps (Settled holder initial) host.asked) :
    Tells holder initial (openShell setup holder host) := by
  intro scene h
  have hmid := hasked scene h
  have hopens := opens_openShell holder hsend host scene
  generalize openShell setup holder host scene = ended at hopens
  cases hopens with
  | already hphase => exact ⟨h.toTold, fun _ => h⟩
  | stopped houtcome => exact ⟨hmid.toTold, fun _ => hmid⟩
  | opened hphase hid =>
      refine ⟨⟨?_, hmid.returns⟩, fun hreturned => absurd rfl hreturned⟩
      rw [latestId_append, ← hmid.shell, ← hid]
      exact congrArg Shell.modelId (holder.shell_withShell _ _)

theorem tells_display (hsend : Steady setup)
    (hasked : Keeps (Settled holder initial) host.asked) :
    Tells holder initial (displayShell setup holder host) := by
  intro scene h
  unfold displayShell
  split_ifs
  · exact tells_open hsend hasked scene h
  · exact ⟨h.toTold, fun _ => h⟩

/-- What follows the shell copies its id. -/
theorem keeps_andThen {code : Code ε W} (hcode : Tells holder initial code) {after : W → W}
    (hshell : ∀ w, holder.shell (after w) = holder.shell w)
    (hid : ∀ w, holder.modelId (after w) = (holder.shell w).modelId) :
    Keeps (Settled holder initial) (andThen code after) := by
  intro scene h
  obtain ⟨htold, hsettled⟩ := hcode scene h
  simp only [andThen]
  generalize code scene = ended at htold hsettled
  obtain ⟨outcome, mid⟩ := ended
  cases outcome with
  | raised e => exact hsettled (by simp)
  | running => exact hsettled (by simp)
  | returned =>
      refine ⟨⟨?_, htold.returns⟩, ?_⟩
      · rw [← htold.shell]
        exact congrArg Shell.modelId (hshell mid.widget)
      · exact (hid mid.widget).trans (congrArg Shell.modelId (hshell mid.widget)).symm

theorem keeps_observe {code : Code ε W} {see : Scene W → Return}
    (hsee : ∀ scene, Settled holder initial scene → (see scene).Agrees initial)
    (hcode : Keeps (Settled holder initial) code) :
    Keeps (Settled holder initial) (observe see code) := by
  refine observe_keeps (fun scene h => ?_) hcode
  refine ⟨⟨h.shell, fun seen hseen => ?_⟩, h.synced⟩
  rcases List.mem_append.mp hseen with hbefore | hlast
  · exact h.returns seen hbefore
  · rw [List.mem_singleton.mp hlast]
    exact hsee scene h

end Ids

end Facade

namespace Python

open Facade

variable {τ : Type}

/-- `Widget` of `model.py`. -/
structure Widget (τ : Type) where
  shell : Shell PyError τ
  modelId : String

/-- `Widget.__init__`. -/
def Widget.init (transport : τ) (modelId : String) : Widget τ :=
  { shell := { transport, modelId }, modelId }

def holder (τ : Type) : Holder PyError τ (Widget τ) where
  shell := Widget.shell
  withShell w shell := { w with shell }
  modelId := Widget.modelId
  withModelId w modelId := { w with modelId }
  shell_withShell _ _ := rfl
  modelId_withShell _ _ := rfl
  shell_withModelId _ _ := rfl
  modelId_withModelId _ _ := rfl
  withShell_withShell _ _ _ := rfl
  withShell_shell _ := rfl

/-- `Widget.mimebundle`. -/
def Widget.mimebundle (reprText : String) (w : Widget τ) : Bindings :=
  Protocol.mimebundle w.shell.modelId reprText

/-- The property `Widget._opened`. -/
def Widget.opened (w : Widget τ) : Bool := w.shell.phase = .opened

def see (reprText : String) (scene : Scene (Widget τ)) : Return where
  modelId := scene.widget.modelId
  shellId := scene.widget.shell.modelId
  bundle := scene.widget.mimebundle reprText
  opened := scene.widget.opened
  phase := scene.widget.shell.phase
  reported := scene.reported

variable (setup : Setup PyError τ)

/-- `Widget.open`. -/
def openComm (host : Host PyError (Widget τ)) : Code PyError (Widget τ) :=
  andThen (openShell setup (holder τ) host) (sync (holder τ))

/-- `Widget._repr_mimebundle_`, its result apart. -/
def reprMimebundle (host : Host PyError (Widget τ)) : Code PyError (Widget τ) :=
  andThen (displayShell setup (holder τ) host) (sync (holder τ))

/-- The public calls of `Widget`, and `_handle_inbound` of its shell. -/
def invoke (host : Host PyError (Widget τ)) : Call → Code PyError (Widget τ)
  | .openComm => observe (see "") (openComm setup host)
  | .sendState include? =>
      observe (see "") (executeWith setup (holder τ) host (.sendState include?))
  | .sendCustom content buffers =>
      observe (see "") (executeWith setup (holder τ) host (.sendCustom content buffers))
  | .closeComm => observe (see "") (closeShell setup (holder τ))
  | .mimebundle reprText => observe (see reprText) fun scene => (.returned, scene)
  | .reprMimebundle => observe (see "") (reprMimebundle setup host)
  | .inbound data buffers => observe (see "") (handleInbound setup (holder τ) host data buffers)

/-- A run of host code on a new `Widget`. -/
def reached (script : Script PyError) (transport : τ) (modelId : String) : Scene (Widget τ) :=
  (run (invoke setup) script { widget := Widget.init transport modelId }).2

variable {setup} {initial : String}

theorem see_agrees (reprText : String) {scene : Scene (Widget τ)}
    (h : Settled (holder τ) initial scene) : (see reprText scene).Agrees initial :=
  ⟨h.synced, bundleId_mimebundle _ reprText, h.shell⟩

theorem keeps_invoke (hsend : Steady setup) (host : Host PyError (Widget τ)) (call : Call)
    (hasked : Keeps (Settled (holder τ) initial) host.asked)
    (hcallback : Keeps (Settled (holder τ) initial) host.callback) :
    Keeps (Settled (holder τ) initial) (invoke setup host call) := by
  have hsync : ∀ {code}, Tells (holder τ) initial code →
      Keeps (Settled (holder τ) initial) (andThen code (sync (holder τ))) :=
    fun hcode => keeps_andThen hcode (fun _ => rfl) (fun _ => rfl)
  cases call with
  | openComm => exact keeps_observe (fun _ => see_agrees "") (hsync (tells_open hsend hasked))
  | sendState include? =>
      exact keeps_observe (fun _ => see_agrees "") (keeps_send hsend rfl hasked hcallback)
  | sendCustom content buffers =>
      exact keeps_observe (fun _ => see_agrees "") (keeps_send hsend rfl hasked hcallback)
  | closeComm => exact keeps_observe (fun _ => see_agrees "") (keeps_close hsend)
  | mimebundle reprText =>
      exact keeps_observe (fun _ => see_agrees reprText) fun _ h => h
  | reprMimebundle =>
      exact keeps_observe (fun _ => see_agrees "") (hsync (tells_display hsend hasked))
  | inbound data buffers =>
      exact keeps_observe (fun _ => see_agrees "")
        (keeps_inbound data buffers (keeps_send hsend rfl hasked hcallback))

theorem settled_reached (hsend : Steady setup) (script : Script PyError) (transport : τ)
    (modelId : String) : Settled (holder τ) modelId (reached setup script transport modelId) :=
  keeps_run (fun host call => keeps_invoke hsend host call) script _
    ⟨⟨rfl, fun _ h => nomatch h⟩, rfl⟩

end Python

namespace Julia

open Facade

variable {τ : Type}

/-- The constructor of `Widget`. -/
def Widget.init (transport : τ) (modelId : String) : Widget τ :=
  { shell := { transport, modelId }, modelId }

def holder (τ : Type) : Holder JuliaError τ (Widget τ) where
  shell := Widget.shell
  withShell w shell := { w with shell }
  modelId := Widget.modelId
  withModelId w modelId := { w with modelId }
  shell_withShell _ _ := rfl
  modelId_withShell _ _ := rfl
  shell_withModelId _ _ := rfl
  modelId_withModelId _ _ := rfl
  withShell_withShell _ _ _ := rfl
  withShell_shell _ := rfl

/-- `mimebundle(w::Widget, repr_text)`. -/
def Widget.mimebundle (reprText : String) (w : Widget τ) : Bindings :=
  Protocol.mimebundle w.shell.modelId reprText

def see (reprText : String) (scene : Scene (Widget τ)) : Return where
  modelId := scene.widget.modelId
  shellId := scene.widget.shell.modelId
  bundle := scene.widget.mimebundle reprText
  opened := scene.widget.opened
  phase := scene.widget.shell.phase
  reported := scene.reported

variable (setup : Setup JuliaError τ)

/-- `open!(w::Widget)`. -/
def openWidget (host : Host JuliaError (Widget τ)) : Code JuliaError (Widget τ) :=
  andThen (openShell setup (holder τ) host) fun w => { sync (holder τ) w with opened := true }

/-- `send_state!` and `send_custom!` of a `Widget`. -/
def sendWidget (host : Host JuliaError (Widget τ)) (event : Event) :
    Code JuliaError (Widget τ) :=
  andThen (executeWith setup (holder τ) host event) (sync (holder τ))

/-- `close!(w::Widget)`. -/
def closeWidget : Code JuliaError (Widget τ) :=
  andThen (closeShell setup (holder τ)) fun w => { sync (holder τ) w with opened := false }

/-- `show(io, mime, w::Widget)`, its output apart. -/
def display (host : Host JuliaError (Widget τ)) : Code JuliaError (Widget τ) := fun scene =>
  if scene.widget.opened then (.returned, scene) else openWidget setup host scene

/-- The public calls of `Widget`, and `_handle_inbound!` of its shell. -/
def invoke (host : Host JuliaError (Widget τ)) : Call → Code JuliaError (Widget τ)
  | .openComm => observe (see "") (openWidget setup host)
  | .sendState include? => observe (see "") (sendWidget setup host (.sendState include?))
  | .sendCustom content buffers =>
      observe (see "") (sendWidget setup host (.sendCustom content buffers))
  | .closeComm => observe (see "") (closeWidget setup)
  | .mimebundle reprText => observe (see reprText) fun scene => (.returned, scene)
  | .reprMimebundle => observe (see "") (display setup host)
  | .inbound data buffers => observe (see "") (handleInbound setup (holder τ) host data buffers)

/-- A run of host code on a new `Widget`. -/
def reached (script : Script JuliaError) (transport : τ) (modelId : String) :
    Scene (Widget τ) :=
  (run (invoke setup) script { widget := Widget.init transport modelId }).2

/-- The Julia `Widget`, and its shell. -/
def juliaSetup (transport : Transport JuliaError τ) (capabilities : TransportCapabilities)
    (hasSetState hasOnCustom : Bool) : Setup JuliaError τ :=
  { port := julia, transport, capabilities, hasSetState, hasOnCustom }

variable {setup} {initial : String}

theorem see_agrees (reprText : String) {scene : Scene (Widget τ)}
    (h : Settled (holder τ) initial scene) : (see reprText scene).Agrees initial :=
  ⟨h.synced, bundleId_mimebundle _ reprText, h.shell⟩

theorem keeps_openWidget (hsend : Steady setup) {host : Host JuliaError (Widget τ)}
    (hasked : Keeps (Settled (holder τ) initial) host.asked) :
    Keeps (Settled (holder τ) initial) (openWidget setup host) :=
  keeps_andThen (tells_open hsend hasked) (fun _ => rfl) (fun _ => rfl)

theorem keeps_display (hsend : Steady setup) {host : Host JuliaError (Widget τ)}
    (hasked : Keeps (Settled (holder τ) initial) host.asked) :
    Keeps (Settled (holder τ) initial) (display setup host) := by
  intro scene h
  unfold display
  split_ifs
  · exact h
  · exact keeps_openWidget hsend hasked scene h

theorem keeps_invoke (hsend : Steady setup) (host : Host JuliaError (Widget τ)) (call : Call)
    (hasked : Keeps (Settled (holder τ) initial) host.asked)
    (hcallback : Keeps (Settled (holder τ) initial) host.callback) :
    Keeps (Settled (holder τ) initial) (invoke setup host call) := by
  have hsent : ∀ {event}, leavesPhase event = true →
      Keeps (Settled (holder τ) initial) (sendWidget setup host event) := fun hevent =>
    keeps_andThen (.of_keeps (keeps_send hsend hevent hasked hcallback)) (fun _ => rfl)
      (fun _ => rfl)
  cases call with
  | openComm => exact keeps_observe (fun _ => see_agrees "") (keeps_openWidget hsend hasked)
  | sendState include? => exact keeps_observe (fun _ => see_agrees "") (hsent rfl)
  | sendCustom content buffers => exact keeps_observe (fun _ => see_agrees "") (hsent rfl)
  | closeComm =>
      exact keeps_observe (fun _ => see_agrees "")
        (keeps_andThen (.of_keeps (keeps_close hsend)) (fun _ => rfl) (fun _ => rfl))
  | mimebundle reprText =>
      exact keeps_observe (fun _ => see_agrees reprText) fun _ h => h
  | reprMimebundle => exact keeps_observe (fun _ => see_agrees "") (keeps_display hsend hasked)
  | inbound data buffers =>
      exact keeps_observe (fun _ => see_agrees "")
        (keeps_inbound data buffers (keeps_send hsend rfl hasked hcallback))

theorem settled_reached (hsend : Steady setup) (script : Script JuliaError) (transport : τ)
    (modelId : String) : Settled (holder τ) modelId (reached setup script transport modelId) :=
  keeps_run (fun host call => keeps_invoke hsend host call) script _
    ⟨⟨rfl, fun _ h => nomatch h⟩, rfl⟩

/-! ### The stored `opened` -/

/-- Faithful answers leave `opened` what the phase says, as every return has shown. -/
def Following (scene : Scene (Widget τ)) : Prop :=
  (∀ execution ∈ scene.executions, execution.Faithful) →
    scene.widget.opened = decide (scene.widget.shell.phase = .opened) ∧
      ∀ seen ∈ scene.returns, seen.Marked

theorem following_face : FaceOnly (holder τ) (Following (τ := τ)) := by
  intro scene shell hsame h hfaithful
  obtain ⟨hopened, hreturns⟩ := h hfaithful
  refine ⟨?_, hreturns⟩
  rw [show (putShell (holder τ) scene shell).widget.shell.phase = shell.phase from rfl, hsame.1]
  exact hopened

/-- A faithful answer is stored over a phase that is open exactly if it is itself. -/
theorem Following.store {scene : Scene (Widget τ)} (h : Following scene) {event : Event}
    (hevent : leavesPhase event = true) (read : Phase) :
    Following (Facade.store (holder τ) event read read scene) := by
  intro hfaithful
  obtain ⟨hopened, hreturns⟩ := h fun execution hmem =>
    hfaithful execution (List.mem_append_left _ hmem)
  have hlast := hfaithful ⟨event, read, scene.widget.shell.phase⟩
    (List.mem_append_right _ (List.mem_singleton_self _)) hevent
  refine ⟨?_, hreturns⟩
  change scene.widget.opened = decide (read = .opened)
  rw [hopened, decide_eq_decide]
  exact hlast.symm

/-- An answer that is not faithful parts `opened` from the phase. -/
theorem store_parts {scene : Scene (Widget τ)} {event : Event} {read : Phase}
    (hopened : scene.widget.opened = decide (scene.widget.shell.phase = .opened))
    (h : ¬Execution.Faithful ⟨event, read, scene.widget.shell.phase⟩) :
    (Facade.store (holder τ) event read read scene).widget.opened ≠
      decide ((Facade.store (holder τ) event read read scene).widget.shell.phase = .opened) := by
  change scene.widget.opened ≠ decide (read = .opened)
  rw [hopened, ne_eq, decide_eq_decide]
  exact fun hiff => h fun _ => hiff.symm

theorem following_openWidget (hsend : Steady setup) {host : Host JuliaError (Widget τ)}
    (hasked : Keeps Following host.asked) : Keeps Following (openWidget setup host) := by
  intro scene h
  have hmid := hasked scene h
  have hopens := opens_openShell (holder τ) hsend host scene
  simp only [openWidget, andThen]
  generalize openShell setup (holder τ) host scene = ended at hopens
  cases hopens with
  | already hphase =>
      intro hfaithful
      exact ⟨(decide_eq_true hphase).symm, (h hfaithful).2⟩
  | @stopped outcome houtcome =>
      cases outcome with
      | returned => exact absurd rfl houtcome
      | raised e => exact hmid
      | running => exact hmid
  | opened hphase hid =>
      intro hfaithful
      refine ⟨(decide_eq_true hphase).symm, (hmid fun execution hmem => ?_).2⟩
      exact hfaithful execution (List.mem_append_left _ hmem)

theorem following_closeWidget (hsend : Steady setup) :
    Keeps (Following (τ := τ)) (closeWidget setup) := by
  intro scene h hfaithful
  obtain ⟨shell, hphase, _, hclose⟩ := closeShell_closes (holder τ) hsend scene
  simp only [closeWidget, andThen, hclose] at hfaithful ⊢
  exact ⟨(decide_eq_false hphase).symm, (h hfaithful).2⟩

theorem following_sync {code : Code JuliaError (Widget τ)} (hcode : Keeps Following code) :
    Keeps Following (andThen code (sync (holder τ))) :=
  andThen_keeps (fun _ h => h) hcode

theorem following_observe (reprText : String) {code : Code JuliaError (Widget τ)}
    (hcode : Keeps Following code) : Keeps Following (observe (see reprText) code) := by
  refine observe_keeps (fun scene h hfaithful => ?_) hcode
  obtain ⟨hopened, hreturns⟩ := h hfaithful
  refine ⟨hopened, fun seen hseen => ?_⟩
  rcases List.mem_append.mp hseen with hbefore | hlast
  · exact hreturns seen hbefore
  · rw [List.mem_singleton.mp hlast]
    exact hopened

theorem following_invoke (hsend : Steady setup) (host : Host JuliaError (Widget τ))
    (call : Call) (hasked : Keeps Following host.asked)
    (hcallback : Keeps Following host.callback) : Keeps Following (invoke setup host call) := by
  have hexecute : ∀ {event}, leavesPhase event = true →
      Keeps Following (executeWith setup (holder τ) host event) := fun hevent =>
    executeWith_keeps hsend following_face hevent (fun read _ h => h.store hevent read) hasked
      hcallback
  have hopen := following_openWidget hsend hasked
  cases call with
  | openComm => exact following_observe "" hopen
  | sendState include? => exact following_observe "" (following_sync (hexecute rfl))
  | sendCustom content buffers => exact following_observe "" (following_sync (hexecute rfl))
  | closeComm => exact following_observe "" (following_closeWidget hsend)
  | mimebundle reprText => exact following_observe reprText fun _ h => h
  | reprMimebundle =>
      refine following_observe "" fun scene h => ?_
      unfold display
      split_ifs
      · exact h
      · exact hopen scene h
  | inbound data buffers =>
      exact following_observe "" (keeps_inbound data buffers (hexecute rfl))

theorem following_reached (hsend : Steady setup) (script : Script JuliaError) (transport : τ)
    (modelId : String) : Following (reached setup script transport modelId) :=
  keeps_run (fun host call => following_invoke hsend host call) script _
    fun _ => ⟨rfl, fun _ h => nomatch h⟩

end Julia

/-- The ids of both façades follow their shells in every run over a transport that never
raises; the stored `opened` of the Julia `Widget` follows in every run whose answers are
faithful. -/
theorem facades_follow_shells {τ : Type} (pyTransport : Transport PyError τ)
    (jlTransport : Transport JuliaError τ)
    (hpy : ∀ message before, (pyTransport.send message before).1 = none)
    (hjl : ∀ message before, (jlTransport.send message before).1 = none)
    (capabilities : TransportCapabilities) (hasSetState hasOnCustom : Bool)
    (pyScript : Facade.Script PyError) (jlScript : Facade.Script JuliaError) (start : τ)
    (modelId : String) :
    let pyScene := Python.reached
      (Shell.pythonSetup pyTransport capabilities hasSetState hasOnCustom) pyScript start modelId
    let jlScene := Julia.reached
      (Julia.juliaSetup jlTransport capabilities hasSetState hasOnCustom) jlScript start modelId
    (∀ seen ∈ pyScene.returns, seen.Agrees modelId) ∧
      (∀ seen ∈ jlScene.returns, seen.Agrees modelId) ∧
        ((∀ execution ∈ jlScene.executions, execution.Faithful) →
          ∀ seen ∈ jlScene.returns, seen.Marked) := by
  have hpySteady : Facade.Steady
      (Shell.pythonSetup pyTransport capabilities hasSetState hasOnCustom) := hpy
  have hjlSteady : Facade.Steady
      (Julia.juliaSetup jlTransport capabilities hasSetState hasOnCustom) := hjl
  intro pyScene jlScene
  refine ⟨?_, ?_, ?_⟩
  · exact (Python.settled_reached hpySteady pyScript start modelId).returns
  · exact (Julia.settled_reached hjlSteady jlScript start modelId).returns
  · intro hfaithful
    exact (Julia.following_reached hjlSteady jlScript start modelId hfaithful).2

namespace WidgetsWitness

open Facade

/-- A transport with a new comm id at each `comm_open`, the second one empty. -/
def renumbering (ε : Type) : Transport ε Nat where
  send message opened := (none, if message.msgType = .commOpen then opened + 1 else opened)
  onMessage := id
  commId opened := ["", "a", "", "b"].getD opened ""

/-- Three openings, the first from inside `get_state`, with a close in a callback. -/
def reopening (ε : Type) : Script ε :=
  .call .openComm (.call .openComm .ret (.ok []) .ret .ret) (.ok []) .ret <|
    .call (.inbound (.dict [(.str "method", .str "custom"), (.str "content", .int 1)]) [])
      .ret (.ok []) (.call .closeComm .ret (.ok []) .ret .ret) <|
        .call .reprMimebundle .ret (.ok []) .ret <|
          .call (.mimebundle "w") .ret (.ok []) .ret .ret

/-- A `get_state` that closes the widget while its state is sent. -/
def closing (ε : Type) : Script ε :=
  .call .openComm .ret (.ok []) .ret <|
    .call (.sendState none) (.call .closeComm .ret (.ok []) .ret .ret) (.ok []) .ret .ret

end WidgetsWitness

theorem facades_follow_shells_reopening :
    (∀ seen ∈ (Python.reached (Shell.pythonSetup (WidgetsWitness.renumbering PyError) {} true true)
        (WidgetsWitness.reopening PyError) 0 "m").returns, seen.Agrees "m") ∧
      let scene := Julia.reached
        (Julia.juliaSetup (WidgetsWitness.renumbering JuliaError) {} true true)
        (WidgetsWitness.reopening JuliaError) 0 "m"
      scene.returns.map Facade.Return.modelId = ["a", "a", "a", "a", "b", "b"] ∧
        ∀ seen ∈ scene.returns, seen.Agrees "m" ∧ seen.Marked := by
  obtain ⟨hpy, hjl, hmarked⟩ := facades_follow_shells (WidgetsWitness.renumbering PyError)
    (WidgetsWitness.renumbering JuliaError) (fun _ _ => rfl) (fun _ _ => rfl) {} true true
    (WidgetsWitness.reopening PyError) (WidgetsWitness.reopening JuliaError) 0 "m"
  refine ⟨hpy, by decide +kernel, fun seen hseen => ⟨hjl seen hseen, ?_⟩⟩
  exact hmarked (by decide +kernel) seen hseen

/-- The state that `get_state` left behind is overwritten, and `opened` is not. -/
theorem stored_opened_drifts :
    ¬ ∀ (τ : Type) (transport : Transport JuliaError τ),
      (∀ message before, (transport.send message before).1 = none) →
        ∀ (script : Facade.Script JuliaError) (start : τ) (modelId : String),
          let scene := Julia.reached (Julia.juliaSetup transport {} true true) script start
            modelId
          ∀ seen ∈ scene.returns, seen.Agrees modelId ∧ seen.Marked := by
  intro h
  have hmarked := h Nat (WidgetsWitness.renumbering JuliaError) (fun _ _ => rfl)
    (WidgetsWitness.closing JuliaError) 0 "m"
  have hlast : ∀ seen ∈ (Julia.reached (Julia.juliaSetup (WidgetsWitness.renumbering JuliaError) {}
      true true) (WidgetsWitness.closing JuliaError) 0 "m").returns,
      seen.opened = decide (seen.phase = .opened) := fun seen hseen => (hmarked seen hseen).2
  revert hlast
  decide +kernel

end Cositos
