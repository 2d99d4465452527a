/-
Opening, closing and displaying over a comm package, in Python and in Julia: an
open widget hears its frontend until it is opened again after a close.
-/
import Cositos.CommTransport
import Cositos.Julia

namespace Cositos

namespace Jupyter

/-- What `_require_comm` raises before there is a comm. -/
def notOpened : PyError := .runtimeError "comm not opened; call Widget.open() first"

/-- A call that opens or closes a `WidgetShell`, with the answer of `get_state`. -/
inductive Toggle
  | openComm (getState : Except PyError Bindings)
  | closeComm
  | display (getState : Except PyError Bindings)

/-- The Python `WidgetShell` over `CommTransport` after a call. -/
def toggle (newId : Nat → String) (capabilities : TransportCapabilities)
    (shell : Shell PyError CommTransport) (call : Toggle) : Shell PyError CommTransport :=
  let setup := Shell.commSetup Lifecycle.python newId notOpened capabilities
  match call with
  | .openComm getState => (Shell.openComm setup (.plain Shell.idle getState) shell).2
  | .closeComm => (Shell.closeComm setup Shell.idle shell).2
  | .display getState => (Shell.reprMimebundle setup (.plain Shell.idle getState) shell).2

/-- A call that opens a closed shell again: the host has a state to send. -/
def Reopens (capabilities : TransportCapabilities) (shell : Shell PyError CommTransport) :
    Toggle → Prop
  | .openComm getState | .display getState =>
      shell.phase = .closed ∧ Shell.Sendable Lifecycle.python capabilities getState
  | .closeComm => False

theorem toggles_toggle (newId : Nat → String) {capabilities : TransportCapabilities}
    (hreceive : capabilities.supportsReceive = true) {shell : Shell PyError CommTransport}
    (hwired : Shell.Wired shell) (call : Toggle) :
    Shell.Toggles Lifecycle.python newId notOpened capabilities (Reopens capabilities shell call)
      shell (toggle newId capabilities shell call) := by
  cases call with
  | openComm getState => exact Shell.toggles_openComm hreceive hwired getState
  | closeComm => exact Shell.toggles_closeComm hwired
  | display getState =>
      have heq : toggle newId capabilities shell (.display getState) =
          toggle newId capabilities shell (.openComm getState) := by
        simp only [toggle, Shell.reprMimebundle, Shell.openComm]
        cases hphase : shell.phase <;> simp
      rw [heq]
      exact Shell.toggles_openComm hreceive hwired getState

end Jupyter

namespace Julia

/-- What `_require_comm` throws before there is a comm. -/
def notOpened : JuliaError := .error "comm not opened; call open!() first"

/-- The deprecated `Widget` around a shell. -/
structure Widget (τ : Type) where
  shell : Shell JuliaError τ
  modelId : String
  opened : Bool := false

variable {τ : Type} (setup : Setup JuliaError τ)

/-- `open!(w::Widget)`. -/
def Widget.openComm (getState : Except JuliaError Bindings) (w : Widget τ) :
    Outcome JuliaError × Widget τ :=
  match Shell.openComm setup (.plain Shell.idle getState) w.shell with
  | (.returned, shell) => (.returned, { shell, modelId := shell.modelId, opened := true })
  | (stopped, shell) => (stopped, { w with shell })

/-- `close!(w::Widget)`. -/
def Widget.closeComm (w : Widget τ) : Outcome JuliaError × Widget τ :=
  match Shell.closeComm setup Shell.idle w.shell with
  | (.returned, shell) => (.returned, { shell, modelId := shell.modelId, opened := false })
  | (stopped, shell) => (stopped, { w with shell })

/-- `show(io, mime, w::Widget)`, its output apart: `w.opened || open!(w)`. -/
def Widget.display (getState : Except JuliaError Bindings) (w : Widget τ) :
    Outcome JuliaError × Widget τ :=
  if w.opened then (.returned, w) else w.openComm setup getState

/-- A call that opens or closes a `WidgetShell`, or does so through its `Widget`. -/
inductive Toggle
  | openShell (getState : Except JuliaError Bindings)
  | closeShell
  | openWidget (getState : Except JuliaError Bindings)
  | closeWidget
  | display (getState : Except JuliaError Bindings)

/-- The Julia `Widget` over `IJuliaCommTransport` after a call. -/
def toggle (newId : Nat → String) (capabilities : TransportCapabilities)
    (w : Widget CommTransport) (call : Toggle) : Widget CommTransport :=
  let setup := Shell.commSetup julia newId notOpened capabilities
  match call with
  | .openShell getState =>
      { w with shell := (Shell.openComm setup (.plain Shell.idle getState) w.shell).2 }
  | .closeShell => { w with shell := (Shell.closeComm setup Shell.idle w.shell).2 }
  | .openWidget getState => (w.openComm setup getState).2
  | .closeWidget => (w.closeComm setup).2
  | .display getState => (w.display setup getState).2

/-- A call that opens a closed shell again: the host has a state to send, and
`show` believes the widget closed. -/
def Reopens (capabilities : TransportCapabilities) (w : Widget CommTransport) :
    Toggle → Prop
  | .openShell getState | .openWidget getState =>
      w.shell.phase = .closed ∧ Shell.Sendable julia capabilities getState
  | .display getState =>
      w.opened = false ∧ w.shell.phase = .closed ∧ Shell.Sendable julia capabilities getState
  | .closeShell | .closeWidget => False

theorem shell_openComm (getState : Except JuliaError Bindings) (w : Widget τ) :
    (w.openComm setup getState).2.shell =
      (Shell.openComm setup (.plain Shell.idle getState) w.shell).2 := by
  unfold Widget.openComm
  split <;> simp_all

theorem shell_closeComm (w : Widget τ) :
    (w.closeComm setup).2.shell = (Shell.closeComm setup Shell.idle w.shell).2 := by
  unfold Widget.closeComm
  split <;> simp_all

theorem toggles_toggle (newId : Nat → String) {capabilities : TransportCapabilities}
    (hreceive : capabilities.supportsReceive = true) {w : Widget CommTransport}
    (hwired : Shell.Wired w.shell) (call : Toggle) :
    Shell.Toggles julia newId notOpened capabilities (Reopens capabilities w call)
      w.shell (toggle newId capabilities w call).shell := by
  cases call with
  | openShell getState => exact Shell.toggles_openComm hreceive hwired getState
  | closeShell => exact Shell.toggles_closeComm hwired
  | openWidget getState =>
      simp only [toggle, shell_openComm]
      exact Shell.toggles_openComm hreceive hwired getState
  | closeWidget =>
      simp only [toggle, shell_closeComm]
      exact Shell.toggles_closeComm hwired
  | display getState =>
      cases hopened : w.opened with
      | true =>
          simp only [toggle, Widget.display, hopened, Reopens]
          exact Shell.toggles_self hwired (by simp)
      | false =>
          simp only [toggle, Widget.display, hopened, Reopens, true_and, Bool.false_eq_true,
            if_false, shell_openComm]
          exact Shell.toggles_openComm hreceive hwired getState

end Julia

/-- Along every run of openings, closings and displays, in Python and in Julia,
an open shell hears its frontend, exactly when no call opens it again after a
close. -/
theorem hears_iff_never_reopened (newId : Nat → String) (capabilities : TransportCapabilities)
    (hreceive : capabilities.supportsReceive = true) (modelId : String) :
    (∀ calls : List Jupyter.Toggle,
      let after := fun done => List.foldl (Jupyter.toggle newId capabilities)
        { transport := {}, modelId } done
      (∀ done, done <+: calls → (after done).phase = .opened →
        Shell.Hears Lifecycle.python newId Jupyter.notOpened capabilities (after done)) ↔
      ∀ done call, done ++ [call] <+: calls → ¬ Jupyter.Reopens capabilities (after done) call) ∧
    ∀ calls : List Julia.Toggle,
      let after := fun done => List.foldl (Julia.toggle newId capabilities)
        { shell := { transport := {}, modelId }, modelId } done
      (∀ done, done <+: calls → (after done).shell.phase = .opened →
        Shell.Hears Julia.julia newId Julia.notOpened capabilities (after done).shell) ↔
      ∀ done call, done ++ [call] <+: calls → ¬ Julia.Reopens capabilities (after done) call := by
  constructor
  · intro calls after
    let P : Shell PyError CommTransport → Prop :=
      Shell.HearsWhileOpen Lifecycle.python newId Jupyter.notOpened capabilities
    have hP : P { transport := {}, modelId } := fun h => nomatch h
    exact Runs.law_iff_no_bad_step (I := Shell.Wired) (P := P)
      (fun shell call h => (Jupyter.toggles_toggle newId hreceive h call).wired)
      (fun shell call h => (Jupyter.toggles_toggle newId hreceive h call).hears)
      (fun shell call h => (Jupyter.toggles_toggle newId hreceive h call).deaf)
      (Shell.wired_start modelId) hP calls
  · intro calls after
    let P : Julia.Widget CommTransport → Prop := fun w =>
      Shell.HearsWhileOpen Julia.julia newId Julia.notOpened capabilities w.shell
    have hP : P { shell := { transport := {}, modelId }, modelId } := fun h => nomatch h
    exact Runs.law_iff_no_bad_step (I := fun w => Shell.Wired w.shell) (P := P)
      (fun w call h => (Julia.toggles_toggle newId hreceive h call).wired)
      (fun w call h => (Julia.toggles_toggle newId hreceive h call).hears)
      (fun w call h => (Julia.toggles_toggle newId hreceive h call).deaf)
      (Shell.wired_start modelId) hP calls

namespace ListeningWitness

/-- Comms numbered `c`, `cc`, and so on. -/
def newId (n : Nat) : String := String.ofList (List.replicate (n + 1) 'c')

/-- Open, close and open again. -/
def reopening : List Jupyter.Toggle := [.openComm (.ok []), .closeComm, .openComm (.ok [])]

/-- Display a widget, open it, and close it. -/
def displaying : List Jupyter.Toggle := [.display (.ok []), .openComm (.ok []), .closeComm]

end ListeningWitness

open ListeningWitness in
theorem hears_iff_never_reopened_once :
    Shell.Hears Lifecycle.python newId Jupyter.notOpened {}
      (List.foldl (Jupyter.toggle newId {}) { transport := {} } (displaying.take 2)) := by
  have hrun := ((hears_iff_never_reopened newId {} rfl "").1 displaying).mpr
    (fun done call hpre => ?_)
  · exact hrun _ (List.take_prefix 2 displaying) (by decide +kernel)
  · have hopened : (Jupyter.toggle newId {} { transport := {} } (.display (.ok []))).phase =
        .opened := by decide +kernel
    rcases done with _ | ⟨first, _ | ⟨second, _ | ⟨third, rest⟩⟩⟩ <;>
      simp only [displaying, List.nil_append, List.cons_append, List.cons_prefix_cons,
        List.prefix_nil, List.append_eq_nil_iff, reduceCtorEq, and_false] at hpre
    · obtain ⟨rfl, -⟩ := hpre
      simp [Jupyter.Reopens]
    · obtain ⟨rfl, rfl, -⟩ := hpre
      simp [Jupyter.Reopens, hopened]
    · obtain ⟨rfl, rfl, rfl, -⟩ := hpre
      exact id

/-- After a close the second comm has no handler. -/
theorem reopened_widget_is_deaf :
    ¬ ∀ (newId : Nat → String) (capabilities : TransportCapabilities),
      capabilities.supportsReceive = true → ∀ calls : List Jupyter.Toggle,
        let shell := List.foldl (Jupyter.toggle newId capabilities) { transport := {} } calls
        shell.phase = .opened →
          Shell.Hears Lifecycle.python newId Jupyter.notOpened capabilities shell := by
  intro h
  obtain ⟨comm, hcomm, hbound⟩ :=
    (h ListeningWitness.newId {} rfl ListeningWitness.reopening (by decide +kernel)).1
  have hdeaf : (List.foldl (Jupyter.toggle ListeningWitness.newId {})
      { transport := {} } ListeningWitness.reopening).transport.comm = some ⟨"cc", false⟩ := by
    decide +kernel
  rw [hdeaf] at hcomm
  cases hcomm
  cases hbound

end Cositos
