/-
One inbound message on the shell of the Python core: what `_handle_inbound` does with any
value that a transport delivers, when neither the transport nor the host interferes.
-/
import Cositos.ShellRuns
import Cositos.Targets

namespace Cositos

open Value

/-! ### Buffers written one after the other -/

/-- `w` is `v` once each buffer has been written at the place its path leads to. -/
inductive WritesInOrder : Value → List (Value × Binary) → Value → Prop
  | nil (v : Value) : WritesInOrder v [] v
  | cons {v v' w path : Value} {b : Binary} {pairs : List (Value × Binary)}
      {segments : List Value} {target : Path} (hsegments : path.segments = .ok segments)
      (htarget : v.target segments = some target) (hwrites : Buffers.Writes v target b v')
      (hrest : WritesInOrder v' pairs w) : WritesInOrder v ((path, b) :: pairs) w

theorem WritesInOrder.label {v w : Value} {pairs : List (Value × Binary)}
    (h : WritesInOrder v pairs w) : w.label = v.label := by
  induction h with
  | nil v => rfl
  | cons _ htarget hwrites _ ih =>
      rw [ih]
      have hroot := hwrites.2 [] fun hpre =>
        target_ne_nil htarget (List.prefix_nil.mp hpre)
      exact Option.some.inj hroot

/-- A merge that succeeds has as many buffers as paths and writes each of them. -/
theorem Buffers.putBuffers_writesInOrder {v w : Value} {bufferPaths : List Value}
    {buffers : List Binary} (h : Buffers.putBuffers v bufferPaths buffers = .ok w) :
    bufferPaths.length = buffers.length ∧ WritesInOrder v (bufferPaths.zip buffers) w := by
  refine ⟨length_of_putBuffers h, putBuffers_run .nil ?_ h⟩
  intro v path paths b buffers segments v' w hsegments hput hrest
  obtain ⟨target, htarget, hwrites⟩ := putAt_target hput
  exact .cons hsegments htarget hwrites hrest

namespace Lifecycle

/-- What an update of an object state is merged into. -/
theorem mergeUpdate_writesInOrder {fields merged : Bindings} {bufferPaths : Value}
    {buffers : List Binary} (h : mergeUpdate (.dict fields) bufferPaths buffers = .ok merged) :
    ∃ paths, bufferPaths.iterate = .ok paths ∧ paths.length = buffers.length ∧
      WritesInOrder (.dict fields) (paths.zip buffers) (.dict merged) := by
  obtain ⟨state, hstate, h⟩ := Port.bind_eq_ok_iff.mp h
  obtain rfl : fields = state := Except.ok.inj hstate
  obtain ⟨paths, hpaths, h⟩ := Port.bind_eq_ok_iff.mp h
  obtain ⟨w, hput, h⟩ := Port.bind_eq_ok_iff.mp h
  obtain rfl : w.bindings = merged := Except.ok.inj h
  obtain ⟨hlength, hwrites⟩ := Buffers.putBuffers_writesInOrder hput
  have hdict : ∃ kvs, w = .dict kvs := by
    have hlabel := hwrites.label
    cases w <;> first | exact ⟨_, rfl⟩ | cases hlabel
  obtain ⟨kvs, rfl⟩ := hdict
  exact ⟨paths, hpaths, hlength, hwrites⟩

end Lifecycle

namespace Shell

/-! ### One message -/

/-- The methods that `parse_message` knows. -/
def knownMethods : List Value := [.str "update", .str "request_state", .str "custom"]

/-- The `method` of what was delivered, if it has one. -/
def methodOf : Value → Option Value
  | .dict data => data.lookup (.str "method")
  | _ => none

/-- The ways in which a delivered message can be dealt with, and the exchange that the
host or the transport sees. -/
inductive Handled : Value → List Binary → Outcome PyError → List (Exchange PyError) → Prop
  | setState {data : Bindings} {buffers : List Binary} {state : Bindings}
      (hmethod : methodOf (.dict data) = some (.str "update"))
      (hstate : ∀ fields, Protocol.get data "state" (.dict []) = .dict fields →
        ∃ paths, (Protocol.get data "buffer_paths" (.list [])).iterate = .ok paths ∧
          paths.length = buffers.length ∧
          WritesInOrder (.dict fields) (paths.zip buffers) (.dict state)) :
      Handled (.dict data) buffers .returned [.applied state]
  | onCustom {data : Bindings} {buffers : List Binary}
      (hmethod : methodOf (.dict data) = some (.str "custom")) :
      Handled (.dict data) buffers .returned
        [.invoked (Protocol.get data "content" .none) buffers]
  | update {data : Bindings} {buffers : List Binary} {message : Send}
      (hmethod : methodOf (.dict data) = some (.str "request_state"))
      (htype : message.msgType = .commMsg)
      (hupdate : message.data.lookup (.str "method") = some (.str "update")) :
      Handled (.dict data) buffers .returned [.sent message none]
  | nothing {data : Value} {buffers : List Binary} : Handled data buffers .returned []
  | raises {data : Value} {buffers : List Binary} {e : PyError} :
      Handled data buffers (.raised e) []

/-- Everything about two shells is the same, the transport and the record apart. -/
structure SameShell {ε τ : Type} (shell shell' : Shell ε τ) : Prop where
  phase : shell'.phase = shell.phase
  modelId : shell'.modelId = shell.modelId
  listening : shell'.listening = shell.listening

variable {τ : Type} {setup : Setup PyError τ}

/-- The Python core over a transport whose `send` never raises. -/
structure Undisturbed (setup : Setup PyError τ) : Prop where
  port : setup.port = Lifecycle.python
  send : ∀ message transport, (setup.transport.send message transport).1 = none

theorem execOne_send_commMsg (hsetup : Undisturbed setup) {message : Send}
    (htype : message.msgType = .commMsg) (host : Code PyError τ) (shell : Shell PyError τ) :
    ∃ transport, execOne setup host (.send message) shell =
      (.returned, { shell with transport := transport
                               trace := shell.trace ++ [.sent message none] }) := by
  refine ⟨(setup.transport.send message shell.transport).2, ?_⟩
  simp only [execOne, hsetup.send, htype]
  rfl

/-- What `parse_message` makes of a delivered value. -/
theorem parse_cases (data : Value) :
    (∃ fields, data = .dict fields ∧ methodOf data = some (.str "update") ∧
      Protocol.parseMessage data = .update (Protocol.get fields "state" (.dict []))
        (Protocol.get fields "buffer_paths" (.list []))) ∨
    (∃ fields, data = .dict fields ∧ methodOf data = some (.str "request_state") ∧
      Protocol.parseMessage data = .requestState) ∨
    (∃ fields, data = .dict fields ∧ methodOf data = some (.str "custom") ∧
      Protocol.parseMessage data = .custom (Protocol.get fields "content" .none)) ∨
    ((∀ method ∈ knownMethods, methodOf data ≠ some method) ∧
      ∃ method, Protocol.parseMessage data = .ignored method) := by
  cases data with
  | scalar s | bin b | list xs | tuple xs =>
      refine .inr (.inr (.inr ⟨?_, .none, rfl⟩))
      intro method _ h
      cases h
  | dict fields =>
      by_cases hupdate : fields.lookup (.str "method") = some (.str "update")
      · exact .inl ⟨fields, rfl, hupdate, by simp [Protocol.parseMessage, Protocol.get, hupdate]⟩
      by_cases hrequest : fields.lookup (.str "method") = some (.str "request_state")
      · refine .inr (.inl ⟨fields, rfl, hrequest, ?_⟩)
        simp [Protocol.parseMessage, Protocol.get, hrequest]
      by_cases hcustom : fields.lookup (.str "method") = some (.str "custom")
      · refine .inr (.inr (.inl ⟨fields, rfl, hcustom, ?_⟩))
        simp [Protocol.parseMessage, Protocol.get, hcustom]
      refine .inr (.inr (.inr ⟨?_, Protocol.get fields "method" .none, ?_⟩))
      · intro method hmem h
        simp only [knownMethods, List.mem_cons, List.not_mem_nil, or_false] at hmem
        rcases hmem with rfl | rfl | rfl
        · exact hupdate h
        · exact hrequest h
        · exact hcustom h
      · have hother : ∀ s : String, fields.lookup (.str "method") ≠ some (.str s) →
            Protocol.get fields "method" .none ≠ .str s := by
          intro s hne heq
          cases hlookup : fields.lookup (.str "method") with
          | none =>
              rw [Protocol.get, hlookup] at heq
              cases heq
          | some method =>
              rw [Protocol.get, hlookup] at heq
              exact hne (by rw [hlookup, ← heq]; rfl)
        simp only [Protocol.parseMessage]
        split
        · exact absurd ‹_› (hother _ hupdate)
        · exact absurd ‹_› (hother _ hrequest)
        · exact absurd ‹_› (hother _ hcustom)
        · rfl

/-! ### What the shell does with it -/

variable {data : Value} {buffers : List Binary} {state : Bindings} {shell : Shell PyError τ}

theorem handleInbound_ignored (hport : setup.port = Lifecycle.python) {method : Value}
    (hparse : Protocol.parseMessage data = .ignored method) (host : Code PyError τ) :
    handleInbound setup (.plain host (.ok state)) data buffers shell = (.returned, shell) := by
  simp only [handleInbound, hport, Lifecycle.python, hparse]

theorem handleInbound_known (hport : setup.port = Lifecycle.python)
    (hparse : ∀ method, Protocol.parseMessage data ≠ .ignored method) (host : Code PyError τ) :
    handleInbound setup (.plain host (.ok state)) data buffers shell =
      execute setup host (.inbound data buffers) state shell := by
  simp only [handleInbound, hport, Lifecycle.python]
  cases hmessage : Protocol.parseMessage data with
  | ignored method => exact absurd hmessage (hparse method)
  | update _ _ | requestState | custom _ =>
      exact executeWith_plain setup host (.inbound data buffers) (.ok state) shell

/-- An inbound message on a comm that is not open is dropped. -/
theorem execute_inbound_closed (hport : setup.port = Lifecycle.python)
    (hphase : shell.phase ≠ .opened) (host : Code PyError τ) :
    execute setup host (.inbound data buffers) state shell = (.returned, shell) := by
  simp only [execute, hport, Port.reduce,
    Lifecycle.python.reduceInbound_closed hphase data buffers state setup.capabilities]
  rfl

/-- On an open comm the answer of the reducer is carried out. -/
theorem execute_inbound_opened (data : Value) (buffers : List Binary) (state : Bindings)
    (hport : setup.port = Lifecycle.python)
    (hphase : shell.phase = .opened) (host : Code PyError τ) :
    (∃ e, execute setup host (.inbound data buffers) state shell = (.raised e, shell) ∧
      Lifecycle.python.answer (Protocol.parseMessage data) buffers state
        setup.capabilities = .error e) ∨
    ∃ effects, Lifecycle.python.answer (Protocol.parseMessage data) buffers state
        setup.capabilities = .ok (.opened, effects) ∧
      execute setup host (.inbound data buffers) state shell =
        execEffects setup host effects shell := by
  have hreduce : setup.port.reduce shell.phase (.inbound data buffers) state setup.capabilities =
      Lifecycle.python.answer (Protocol.parseMessage data) buffers state setup.capabilities := by
    rw [hport, hphase]
    exact Lifecycle.reduceInbound_opened data buffers state setup.capabilities
  unfold execute
  rw [hreduce]
  cases hanswer : Lifecycle.python.answer (Protocol.parseMessage data) buffers state
      setup.capabilities with
  | error e => exact .inl ⟨e, rfl, rfl⟩
  | ok answer =>
      obtain ⟨phase, effects⟩ := answer
      have hopened : phase = .opened := by
        have hmoves : Port.Moves setup.capabilities .opened (.inbound data buffers) phase effects :=
          Port.moves_reduceInbound
            ((Lifecycle.reduceInbound_opened data buffers state setup.capabilities).trans hanswer)
        cases hmoves <;> rfl
      subst hopened
      refine .inr ⟨effects, rfl, ?_⟩
      simp only [← hphase]

/-- The shell after the host or the transport has seen one thing. -/
theorem handled_opened (state : Bindings) (hsetup : Undisturbed setup)
    (hphase : shell.phase = .opened)
    (hknown : ∀ method, Protocol.parseMessage data ≠ .ignored method) :
    ∃ outcome shell' exchanges,
      execute setup (run setup .ret) (.inbound data buffers) state shell = (outcome, shell') ∧
      SameShell shell shell' ∧ shell'.trace = shell.trace ++ exchanges ∧
      Handled data buffers outcome exchanges ∧ (exchanges = [] → shell' = shell) := by
  have hsame : SameShell shell shell := ⟨rfl, rfl, rfl⟩
  rcases execute_inbound_opened data buffers state hsetup.port hphase (run setup .ret) with
    ⟨e, hexecute, _⟩ | ⟨effects, hanswer, hexecute⟩
  · exact ⟨_, _, [], hexecute, hsame, by simp, .raises, fun _ => rfl⟩
  rw [hexecute]
  rcases parse_cases data with ⟨fields, rfl, hmethod, hparse⟩ | ⟨fields, rfl, hmethod, hparse⟩ |
    ⟨fields, rfl, hmethod, hparse⟩ | ⟨_, method, hparse⟩
  · rw [hparse] at hanswer
    obtain ⟨merged, hmerge, heq⟩ := Port.bind_eq_ok_iff.mp hanswer
    cases heq
    rw [execEffects_singleton]
    cases hhas : setup.hasSetState with
    | false =>
        exact ⟨_, _, [], by simp [execOne, hhas], hsame, by simp, .nothing, fun _ => rfl⟩
    | true =>
        refine ⟨.returned, shell.record (.applied merged), [.applied merged],
          by simp [execOne, hhas, run], ⟨rfl, rfl, rfl⟩, rfl, .setState hmethod ?_, by simp⟩
        intro fields' hfields
        have hmerge' : Lifecycle.mergeUpdate (.dict fields') _ buffers = .ok merged :=
          hfields ▸ hmerge
        exact Lifecycle.mergeUpdate_writesInOrder hmerge'
  · rw [hparse, Port.answer] at hanswer
    split_ifs at hanswer
    · cases hanswer
      exact ⟨_, _, [], rfl, hsame, by simp, .nothing, fun _ => rfl⟩
    · obtain ⟨⟨data, sent⟩, hbuild, heq⟩ := Port.bind_eq_ok_iff.mp hanswer
      cases heq
      have hupdate : data.lookup (.str "method") = some (.str "update") := by
        obtain ⟨split, _, hdata⟩ := Port.bind_eq_ok_iff.mp hbuild
        cases hdata
        rfl
      have htype : ({ msgType := .commMsg, data := data, buffers := sent } : Send).msgType =
          .commMsg := rfl
      obtain ⟨transport, hsend⟩ := execOne_send_commMsg hsetup htype (run setup .ret) shell
      rw [execEffects_singleton, hsend]
      exact ⟨_, _, [_], rfl, ⟨rfl, rfl, rfl⟩, rfl, .update hmethod rfl hupdate, by simp⟩
  · rw [hparse] at hanswer
    cases hanswer
    rw [execEffects_singleton]
    cases hhas : setup.hasOnCustom with
    | false =>
        exact ⟨_, _, [], by simp [execOne, hhas], hsame, by simp, .nothing, fun _ => rfl⟩
    | true =>
        exact ⟨.returned, shell.record (.invoked _ buffers), [.invoked _ buffers],
          by simp [execOne, hhas, run], ⟨rfl, rfl, rfl⟩, rfl, .onCustom hmethod, by simp⟩
  · exact absurd hparse (hknown method)

/-- `_handle_inbound` does one thing or none: it calls `set_state` once, with the state of
the update and all its buffers, calls `on_custom` once, sends one update, does nothing, or
raises; the phase stays, and an unknown method, or a comm that is not open, does nothing. -/
theorem handleInbound_all_or_nothing (hsetup : Undisturbed setup) (data : Value)
    (buffers : List Binary) (state : Bindings) (shell : Shell PyError τ) :
    ∃ outcome shell' exchanges,
      handleInbound setup (.plain (run setup .ret) (.ok state)) data buffers shell =
        (outcome, shell') ∧
      SameShell shell shell' ∧ shell'.trace = shell.trace ++ exchanges ∧
      Handled data buffers outcome exchanges ∧ (exchanges = [] → shell' = shell) ∧
      (shell.phase ≠ .opened ∨ (∀ method ∈ knownMethods, methodOf data ≠ some method) →
        outcome = .returned ∧ exchanges = []) := by
  have hnothing : ∀ shell' : Shell PyError τ, shell' = shell →
      SameShell shell shell' ∧ shell'.trace = shell.trace ++ [] := by
    rintro _ rfl
    exact ⟨⟨rfl, rfl, rfl⟩, by simp⟩
  by_cases hknown : ∀ method, Protocol.parseMessage data ≠ .ignored method
  · rw [handleInbound_known hsetup.port hknown]
    by_cases hphase : shell.phase = .opened
    · obtain ⟨outcome, shell', exchanges, hexecute, hsame, htrace, hhandled, hempty⟩ :=
        handled_opened state hsetup hphase hknown
      refine ⟨outcome, shell', exchanges, hexecute, hsame, htrace, hhandled, hempty, ?_⟩
      rintro (hclosed | hunknown)
      · exact absurd hphase hclosed
      · rcases parse_cases data with ⟨_, _, hmethod, _⟩ | ⟨_, _, hmethod, _⟩ |
          ⟨_, _, hmethod, _⟩ | ⟨_, method, hparse⟩
        · exact absurd hmethod (hunknown _ (by simp [knownMethods]))
        · exact absurd hmethod (hunknown _ (by simp [knownMethods]))
        · exact absurd hmethod (hunknown _ (by simp [knownMethods]))
        · exact absurd hparse (hknown method)
    · rw [execute_inbound_closed hsetup.port hphase]
      obtain ⟨hsame, htrace⟩ := hnothing shell rfl
      exact ⟨_, _, [], rfl, hsame, htrace, .nothing, fun _ => rfl, fun _ => ⟨rfl, rfl⟩⟩
  · simp only [ne_eq, not_forall, not_not] at hknown
    obtain ⟨method, hparse⟩ := hknown
    rw [handleInbound_ignored hsetup.port hparse]
    obtain ⟨hsame, htrace⟩ := hnothing shell rfl
    exact ⟨_, _, [], rfl, hsame, htrace, .nothing, fun _ => rfl, fun _ => ⟨rfl, rfl⟩⟩

namespace QuietWitness

/-- A transport that takes every message. -/
def quietSetup : Setup PyError Unit where
  port := Lifecycle.python
  transport := { send := fun _ t => (none, t), onMessage := id, commId := fun _ => "" }

def quietShell : Shell PyError Unit := { transport := (), phase := .opened }

/-- An update with a buffer below a list. -/
def nestedUpdate : Value := .dict [(.str "method", .str "update"),
  (.str "state", .dict [(.str "images", .list [.none])]),
  (.str "buffer_paths", .list [.list [.str "images", .int 0]])]

theorem handleInbound_quiet :
    ∃ outcome shell' exchanges,
      handleInbound quietSetup (.plain (run quietSetup .ret) (.ok [])) nestedUpdate
        [⟨.bytes, [65]⟩] quietShell = (outcome, shell') ∧
      SameShell quietShell shell' ∧ shell'.trace = quietShell.trace ++ exchanges ∧
      Handled nestedUpdate [⟨.bytes, [65]⟩] outcome exchanges ∧
      (exchanges = [] → shell' = quietShell) ∧
      (quietShell.phase ≠ .opened ∨ (∀ method ∈ knownMethods, methodOf nestedUpdate ≠ some method) →
        outcome = .returned ∧ exchanges = []) :=
  handleInbound_all_or_nothing ⟨rfl, fun _ _ => rfl⟩ nestedUpdate _ [] quietShell

end QuietWitness

end Shell

end Cositos
